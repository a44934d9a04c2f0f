import WordAutomata.Aldebaran.Write
import WordAutomata.Proofs.Layouts
import Mathlib

/-!
# Reading What Was Written

A file that was written for an automaton can be read, and gives back all that is
written in it: the start state, the number of states and the rules in their order.
Every character can be a label but a line feed, which would end the line.

The conditions are those under which a file can be right at all. All states are
below their number, numbers fit into 64 bits, and no label on a rule is one that
the reader takes for epsilon. The file is then one of the layouts of the automaton.

The writer does not look for line feeds. Of a rule that carries one it writes two
lines, and the first of these is a fault.

## Main definitions

* `Aldebaran.ruleChars`, `Aldebaran.headerChars`: The lines that are written.
* `Aldebaran.brokenChars`: The line of a rule with a line feed.

## Theorems

* `Aldebaran.toList_text`: A file is these lines, each with a line feed.
* `Aldebaran.layout_text`: So it is one of the layouts that are read.
* `Aldebaran.read_text`: A file that was written gives back the automaton.
* `Aldebaran.read_text_of_feed`: Unless a rule carries a line feed.
-/

namespace WordAutomata

namespace Aldebaran

open Text

/-! ## Lines that are written -/

/-- Three parts between parentheses, with commas in between. -/
def tupleLine (first second third : List Char) : List Char :=
  '(' :: (first ++ ',' :: ' ' :: (second ++ ',' :: ' ' :: (third ++ [')'])))

/-- The characters of a number. -/
def digits (n : Nat) : List Char := Nat.toDigits 10 n

/-- The line of a rule. -/
def ruleChars (r : Finite.Rule StateIndex) : List Char :=
  tupleLine (digits r.source.value) ('"' :: ((labelText r.symbol).toList ++ ['"']))
    (digits r.target.value)

/-- The line of a header. -/
def headerChars (h : Header) : List Char :=
  ['d', 'e', 's', ' '] ++ tupleLine (digits h.initial) (digits h.transitions) (digits h.states)

/-- The header that is written for an automaton. -/
def headerOf (a : Dfa StateIndex) : Header :=
  ⟨a.start.value, a.rulebook.rules.length, a.states.size⟩

theorem toList_tuple (first second third : String) : (tuple first second third).toList =
    tupleLine first.toList second.toList third.toList ++ ['\n'] := by
  simp only [tuple, tupleLine, String.toList_append, List.append_assoc, List.cons_append]
  rfl

theorem toList_ruleLine (r : Finite.Rule StateIndex) :
    (ruleLine r).toList = ruleChars r ++ ['\n'] := by
  have hlabel : ("\"" ++ labelText r.symbol ++ "\"").toList =
      '"' :: ((labelText r.symbol).toList ++ ['"']) := by
    rw [String.toList_append, String.toList_append]
    rfl
  have hnumber : ∀ i : StateIndex, (describe i).toList = digits i.value :=
    fun i => toList_describe i.value
  rw [ruleLine, toList_tuple, hlabel, hnumber, hnumber, ruleChars]

/-- A file is a header and the lines of the rules, each with a line feed. -/
theorem toList_text (a : Dfa StateIndex) : (text a).toList =
    (headerChars (headerOf a) :: a.rulebook.rules.map ruleChars).flatMap (· ++ ['\n']) := by
  have hrules : (String.join (a.rulebook.rules.map ruleLine)).toList =
      (a.rulebook.rules.map ruleChars).flatMap (· ++ ['\n']) := by
    rw [String.toList_join, List.flatMap_map, List.flatMap_map]
    apply List.flatMap_congr
    intro r _
    exact toList_ruleLine r
  have hheader : ("des " ++ tuple (describe a.start) (describe a.rulebook.rules.length)
      (describe a.states.size)).toList = headerChars (headerOf a) ++ ['\n'] := by
    have hstart : (describe a.start).toList = digits a.start.value := toList_describe a.start.value
    rw [String.toList_append, toList_tuple, hstart, toList_describe, toList_describe,
      ← List.append_assoc]
    rfl
  rw [text, String.toList_append, hheader, hrules, List.flatMap_cons]

theorem mem_tupleLine {first second third : List Char} {c : Char} :
    c ∈ tupleLine first second third ↔
      c ∈ first ∨ c ∈ second ∨ c ∈ third ∨ c = '(' ∨ c = ',' ∨ c = ' ' ∨ c = ')' := by
  simp only [tupleLine, List.mem_cons, List.mem_append, List.not_mem_nil, or_false]
  tauto

theorem getLast?_tupleLine (first second third : List Char) :
    (tupleLine first second third).getLast? = some ')' := by
  have hsplit : tupleLine first second third =
      ('(' :: (first ++ ',' :: ' ' :: (second ++ ',' :: ' ' :: third))) ++ [')'] := by
    simp only [tupleLine, List.cons_append, List.append_assoc]
  rw [hsplit, List.getLast?_concat]

theorem laid_tupleLine (first second third : List Char) :
    Laid [] first second third (tupleLine first second third) :=
  ⟨[], first, ' ' :: second, ' ' :: third, [], padded_self [], padded_self first,
    padded_space second, padded_space third, isBlank_of_mem_nil, rfl⟩

theorem laid_des_tupleLine (first second third : List Char) :
    Laid ['d', 'e', 's'] first second third
      (['d', 'e', 's', ' '] ++ tupleLine first second third) :=
  ⟨['d', 'e', 's', ' '], first, ' ' :: second, ' ' :: third, [],
    ⟨[], [' '], isBlank_of_mem_nil, isBlank_of_mem_space, rfl⟩, padded_self first,
    padded_space second, padded_space third, isBlank_of_mem_nil, rfl⟩

/-! ## A file as a layout -/

theorem numeral_digits (n : Nat) : Numeral n (digits n) where
  nonempty := Nat.toDigits_ne_nil
  digit _ := isDigit_of_mem_toDigits
  value := Nat.ofDigitChars_ten_toDigits

theorem not_mem_digits {n : Nat} {c : Char} (h : isDigit c = false) : c ∉ digits n :=
  fun hmem => ne_of_isDigit ((numeral_digits n).digit c hmem) h rfl

variable {silent : List (List Char)} {symbol : Symbol} {r : Finite.Rule StateIndex}
  {a : Dfa StateIndex}

theorem toList_labelText_character (c : Char) : (labelText (.character c)).toList = [c] := by
  rw [labelText, Char.toString, String.toList_singleton]

theorem means_labelText (h : Plain silent symbol) :
    Means silent (labelText symbol).toList symbol := by
  cases symbol with
  | epsilon => exact .tau
  | character c =>
      rw [toList_labelText_character]
      exact .character (h c rfl).2

theorem headerLine_headerChars (h : Header) : HeaderLine h (headerChars h) := by
  have hdigits : ∀ n, '\n' ∉ digits n := fun n => not_mem_digits rfl
  refine ⟨?_, _, _, _, numeral_digits _, numeral_digits _, numeral_digits _,
    laid_des_tupleLine _ _ _⟩
  simp [headerChars, mem_tupleLine, hdigits]

theorem ruleLine_ruleChars (h : Plain silent r.symbol) : RuleLine silent r (ruleChars r) := by
  have hdigits : ∀ n, '\n' ∉ digits n := fun n => not_mem_digits rfl
  have hlabel : '\n' ∉ (labelText r.symbol).toList := by
    cases hc : r.symbol with
    | epsilon => simp [labelText]
    | character c =>
        rw [toList_labelText_character, List.mem_singleton]
        exact (h c hc).1.symm
  refine ⟨?_, _, _, _, _, numeral_digits _, means_labelText h, .quoted, numeral_digits _,
    laid_tupleLine _ _ _⟩
  simp [ruleChars, mem_tupleLine, hdigits, hlabel]

theorem ruleLines_map_ruleChars {rules : List (Finite.Rule StateIndex)}
    (h : ∀ r ∈ rules, Plain silent r.symbol) : RuleLines silent rules (rules.map ruleChars) := by
  induction rules with
  | nil => exact .nil
  | cons r rules ih =>
      rw [List.forall_mem_cons] at h
      exact .rule (ruleLine_ruleChars h.1) (ih h.2)

theorem ended_flatMap (ls : List (List Char)) : Ended ls (ls.flatMap (· ++ ['\n'])) := by
  induction ls with
  | nil => exact .nil
  | cons line ls ih =>
      rw [List.flatMap_cons, List.append_assoc, List.singleton_append]
      exact .feed ih

/-- A file that was written is a layout of the rules, unless one of them carries a line
    feed. -/
theorem layout_text (h : ∀ r ∈ a.rulebook.rules, Plain silent r.symbol) :
    Layout silent (headerOf a) a.rulebook.rules (text a).toList := by
  rw [toList_text]
  exact ⟨_, .header (headerLine_headerChars _) (ruleLines_map_ruleChars h), ended_flatMap _⟩

/-- A file that was written gives back the start state, the number of states and the
    rules. -/
theorem read_text {a : Dfa StateIndex} (hstart : a.start.value < a.states.size)
    (hends : ∀ r ∈ a.rulebook.rules, r.source.value < a.states.size ∧
      r.target.value < a.states.size)
    (hstates : a.states.size < UInt64.size) (hlength : a.rulebook.rules.length < UInt64.size)
    (hplain : ∀ r ∈ a.rulebook.rules, Plain silent r.symbol) :
    read silent (text a).toUTF8.toList =
      .ok ⟨a.start, a.states.size, .ofRules a.rulebook.rules⟩ := by
  rw [toList_toUTF8]
  exact (layout_text hplain).read_eq hstart hstates hlength hends

/-! ## Line feeds on rules -/

/-- What there is of the line of a rule if its label is a line feed: it ends there. -/
def brokenChars (r : Finite.Rule StateIndex) : List Char :=
  '(' :: (digits r.source.value ++ [',', ' ', '"'])

/-- What there is on the next line. -/
def restChars (r : Finite.Rule StateIndex) : List Char :=
  '"' :: ',' :: ' ' :: (digits r.target.value ++ [')'])

theorem ruleChars_of_feed (h : r.symbol = .character '\n') :
    ruleChars r = brokenChars r ++ '\n' :: restChars r := by
  rw [ruleChars, h, toList_labelText_character, tupleLine, brokenChars, restChars]
  simp only [List.append_assoc, List.cons_append, List.nil_append]

/-- The first piece is no transition, for want of a parenthesis at its end. -/
theorem readRule_brokenChars (states : Nat) (r : Finite.Rule StateIndex) :
    readRule states silent (encoded (brokenChars r)) =
      .error (.invalidTransition (brokenChars r)) := by
  have hclosing : ')' ∉ brokenChars r := by
    have hdigits : ∀ n, ')' ∉ digits n := fun n => not_mem_digits rfl
    simp [brokenChars, hdigits]
  have hblank : ¬ isBlankText (brokenChars r) = true := fun h =>
    nomatch List.all_eq_true.1 h '(' List.mem_cons_self
  rw [readRule, readLine_encoded]
  simp only [if_neg hblank, readTransition, fields?_of_not_mem hclosing]
  rfl

/-- The lines of a file up to the first line feed on a rule, and what is seen of that one. -/
theorem lines_text_of_feed {before after : List (Finite.Rule StateIndex)}
    (hrules : a.rulebook.rules = before ++ r :: after) (h : r.symbol = .character '\n')
    (hbefore : ∀ s ∈ before, Plain silent s.symbol) :
    ∃ more, lines '\n' '\r' (text a).toList =
      headerChars (headerOf a) :: before.map ruleChars ++ brokenChars r :: more := by
  have hdigits : ∀ n, '\n' ∉ digits n := fun n => not_mem_digits rfl
  have hbroken : '\n' ∉ brokenChars r := by simp [brokenChars, hdigits]
  have hlast : (brokenChars r).getLast? ≠ some '\r' := by
    have hsplit : brokenChars r = ('(' :: (digits r.source.value ++ [',', ' '])) ++ ['"'] := by
      simp only [brokenChars, List.cons_append, List.append_assoc, List.nil_append]
    rw [hsplit, List.getLast?_concat]
    decide
  have hheader : '\n' ∉ headerChars (headerOf a) := (headerLine_headerChars _).1
  have hbefore' : ∀ line ∈ before.map ruleChars, '\n' ∉ line :=
    (ruleLines_map_ruleChars hbefore).not_mem
  have htuple : ∀ front first second third,
      (front ++ tupleLine first second third).getLast? ≠ some '\r' := by
    intro front first second third
    have hne : tupleLine first second third ≠ [] := List.cons_ne_nil _ _
    rw [List.getLast?_append_of_ne_nil _ hne, getLast?_tupleLine]
    decide
  -- The lines before the line feed, that line, and what follows.
  let rest := restChars r ++ ['\n'] ++ (after.map ruleChars).flatMap (· ++ ['\n'])
  have htext : (text a).toList =
      (headerChars (headerOf a) :: before.map ruleChars).flatMap (· ++ ['\n']) ++
        (brokenChars r ++ '\n' :: rest) := by
    rw [toList_text, hrules, List.map_append, List.map_cons, ruleChars_of_feed h]
    simp only [rest, List.flatMap_cons, List.flatMap_append, List.append_assoc, List.cons_append,
      List.nil_append]
  refine ⟨lines '\n' '\r' rest, ?_⟩
  rw [htext, lines_flatMap (List.forall_mem_cons.2 ⟨hheader, hbefore'⟩), lines_append_cons hbroken,
    dropReturn_of_ne hlast]
  intro line hline
  rcases List.mem_cons.1 hline with rfl | hline
  · exact htuple _ _ _ _
  · rcases List.mem_map.1 hline with ⟨s, _, rfl⟩
    exact htuple [] _ _ _

/-- A file with a line feed on a rule cannot be read. The fault is in the first such rule. -/
theorem read_text_of_feed (hstart : a.start.value < a.states.size)
    (hends : ∀ r ∈ a.rulebook.rules, r.source.value < a.states.size ∧
      r.target.value < a.states.size)
    (hstates : a.states.size < UInt64.size) (hlength : a.rulebook.rules.length < UInt64.size)
    {before after : List (Finite.Rule StateIndex)}
    (hrules : a.rulebook.rules = before ++ r :: after) (h : r.symbol = .character '\n')
    (hbefore : ∀ s ∈ before, Plain silent s.symbol) :
    read silent (text a).toUTF8.toList = .error (.invalidTransition (brokenChars r)) := by
  rcases lines_text_of_feed hrules h hbefore with ⟨more, hlines⟩
  have hhead : readHead (byteLines (text a).toUTF8.toList) = .ok (headerOf a,
      (before.map ruleChars).map encoded ++ encoded (brokenChars r) :: more.map encoded) := by
    rw [toList_toUTF8, byteLines_encoded, hlines, List.cons_append, List.map_cons, List.map_append,
      List.map_cons]
    exact (headerLine_headerChars (headerOf a)).readHead_eq hstart hstates hlength _
  have hends' : ∀ s ∈ before, s.source.value < a.states.size ∧ s.target.value < a.states.size := by
    intro s hs
    apply hends
    rw [hrules]
    exact List.mem_append_left _ hs
  have hread := (ruleLines_map_ruleChars hbefore).readRules_append (Nat.le_of_lt hstates) hends' []
    (encoded (brokenChars r) :: more.map encoded)
  rw [readRules, readRule_brokenChars] at hread
  exact read_of_fault hhead hread

theorem plain_nil_iff : Plain [] symbol ↔ symbol ≠ .character '\n' := by
  constructor
  · rintro h rfl
    exact (h '\n' rfl).1 rfl
  · rintro h c rfl
    refine ⟨?_, List.not_mem_nil⟩
    rintro rfl
    exact h rfl

/-- An automaton whose states are numbered without gaps comes back from its file, with its
    start state, its number of states and its rules in order, unless one of the rules
    carries a line feed. There is no other character that the format cannot hold. With
    a line feed on a rule the file is written as well, and no fault is found then, but
    it cannot be read: the first such rule has no line of its own. -/
theorem read_text_of_numbered (a : Dfa StateIndex)
    (hnumbered : ∀ i, i ∈ a.states ↔ i.value < a.states.size)
    (hstates : a.states.size < UInt64.size) (hlength : a.rulebook.rules.length < UInt64.size) :
    (∀ log, (write none a log).1 = .ok (text a)) ∧
    (read [] (text a).toUTF8.toList = .ok ⟨a.start, a.states.size, .ofRules a.rulebook.rules⟩ ↔
      ∀ r ∈ a.rulebook.rules, r.symbol ≠ .character '\n') ∧
    ∀ before r after, a.rulebook.rules = before ++ r :: after →
      r.symbol = .character '\n' → (∀ s ∈ before, s.symbol ≠ .character '\n') →
      read [] (text a).toUTF8.toList = .error (.invalidTransition (brokenChars r)) := by
  have hstart : a.start.value < a.states.size := (hnumbered _).1 Finite.start_mem_states
  have hends : ∀ r ∈ a.rulebook.rules, r.source.value < a.states.size ∧
      r.target.value < a.states.size := fun r hr =>
    ⟨(hnumbered _).1 (Finite.source_mem_states hr), (hnumbered _).1 (Finite.target_mem_states hr)⟩
  have hbroken : ∀ before r after, a.rulebook.rules = before ++ r :: after →
      r.symbol = .character '\n' → (∀ s ∈ before, s.symbol ≠ .character '\n') →
      read [] (text a).toUTF8.toList = .error (.invalidTransition (brokenChars r)) :=
    fun before r after hrules hr hbefore =>
      read_text_of_feed hstart hends hstates hlength hrules hr fun s hs =>
        plain_nil_iff.2 (hbefore s hs)
  refine ⟨fun log => rfl, ⟨fun hread => ?_, fun hsymbols => ?_⟩, hbroken⟩
  · -- If some rule carried a line feed, the first such rule would be a fault.
    cases hfirst : a.rulebook.rules.find? fun r => decide (r.symbol = .character '\n') with
    | none =>
        intro r hr
        exact of_decide_eq_false (Bool.eq_false_iff.2 (List.find?_eq_none.1 hfirst r hr))
    | some r =>
        rw [List.find?_eq_some_iff_append] at hfirst
        rcases hfirst with ⟨hr, before, after, hrules, hbefore⟩
        have hbefore' : ∀ s ∈ before, s.symbol ≠ .character '\n' := by
          intro s hs
          have hnot := hbefore s hs
          rw [Bool.not_eq_true'] at hnot
          exact of_decide_eq_false hnot
        rw [hbroken before r after hrules (of_decide_eq_true hr) hbefore'] at hread
        cases hread
  · exact read_text hstart hends hstates hlength fun r hr => plain_nil_iff.2 (hsymbols r hr)

/-- The numbers up to some number are those below the size of their set. -/
theorem mem_iff_lt_size {s : SortedSet StateIndex} {n : Nat}
    (h : s.toList = (List.range n).map Index.mk) (i : StateIndex) : i ∈ s ↔ i.value < s.size := by
  rw [SortedSet.mem_def, SortedSet.size, h, List.length_map, List.length_range, List.mem_map]
  constructor
  · rintro ⟨k, hk, rfl⟩
    exact List.mem_range.1 hk
  · intro hi
    exact ⟨i.value, List.mem_range.2 hi, rfl⟩

/-- Rules with the marks of the format for labels, with a return, and without a label. -/
def marked : Dfa StateIndex where
  start := ⟨1⟩
  accepting := .singleton ⟨0⟩
  rulebook := .ofDistinct [⟨⟨1⟩, .character ',', ⟨0⟩⟩, ⟨⟨0⟩, .character '"', ⟨0⟩⟩,
    ⟨⟨0⟩, .epsilon, ⟨1⟩⟩, ⟨⟨1⟩, .character ')', ⟨1⟩⟩, ⟨⟨0⟩, .character '\r', ⟨1⟩⟩] (by decide)

/-- All of these come back. -/
theorem read_text_of_numbered_marked :
    (∀ i, i ∈ marked.states ↔ i.value < marked.states.size) ∧
    read [] (text marked).toUTF8.toList = .ok ⟨⟨1⟩, 2, .ofRules [⟨⟨1⟩, .character ',', ⟨0⟩⟩,
      ⟨⟨0⟩, .character '"', ⟨0⟩⟩, ⟨⟨0⟩, .epsilon, ⟨1⟩⟩, ⟨⟨1⟩, .character ')', ⟨1⟩⟩,
      ⟨⟨0⟩, .character '\r', ⟨1⟩⟩]⟩ := by
  have hlist : marked.states.toList = (List.range 2).map Index.mk := by cbv
  have hsize : marked.states.size = 2 := by
    rw [SortedSet.size, hlist]
    rfl
  have hrules : marked.rulebook.rules = _ := Dfa.Rulebook.rules_ofDistinct
  have hstates : marked.states.size < UInt64.size := by
    rw [hsize]
    decide
  have hlength : marked.rulebook.rules.length < UInt64.size := by
    rw [hrules]
    decide
  have hsymbols : ∀ r ∈ marked.rulebook.rules, r.symbol ≠ .character '\n' := by
    rw [hrules]
    decide
  have hread := read_text_of_numbered marked (mem_iff_lt_size hlist) hstates hlength
  refine ⟨mem_iff_lt_size hlist, ?_⟩
  rw [hread.2.1.2 hsymbols, hrules, hsize]
  rfl

/-- A single rule, with a line feed for its label. -/
def lineFeed : Dfa StateIndex where
  start := ⟨0⟩
  accepting := .singleton ⟨1⟩
  rulebook := .ofDistinct [⟨⟨0⟩, .character '\n', ⟨1⟩⟩] (by decide)

/-- Its states are numbered without gaps and it is written, but the file cannot be read. -/
theorem not_read_text_lineFeed :
    (∀ i, i ∈ lineFeed.states ↔ i.value < lineFeed.states.size) ∧
    (write none lineFeed .silent).1 = .ok "des (0, 1, 2)\n(0, \"\n\", 1)\n" ∧
    read [] "des (0, 1, 2)\n(0, \"\n\", 1)\n".toUTF8.toList =
      .error (.invalidTransition ['(', '0', ',', ' ', '"']) := by
  have hlist : lineFeed.states.toList = (List.range 2).map Index.mk := by cbv
  refine ⟨mem_iff_lt_size hlist, ?_, ?_⟩
  · cbv
  · cbv

end Aldebaran

end WordAutomata
