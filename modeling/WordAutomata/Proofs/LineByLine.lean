import WordAutomata.Proofs.ReadFiles
import Mathlib.Data.List.Forall2

/-!
# Reading Line by Line

Reading a file is a fold over its lines. A reader knows whether it has seen the header,
and from then on the header and the rules so far, and that is all on which the next line
depends. The first line with a fault ends the fold.

So the fault of a file has a place. The lines before it have no fault, the line itself
has this one, and what comes after it was never looked at. A line that is ended by a
line feed ends there whatever follows, and so the bytes behind the line feed could be
any others.

What has been read is known after each line: nothing but blank lines, or blank lines, a
header, and one rule for each line after it that is not blank. That is also enough to
come this far.

## Main definitions

* `Aldebaran.Reading`: How far a reader has come.
* `Aldebaran.Reading.advance`: What one more line does.
* `Aldebaran.Reading.Holds`: What is known after some lines.
* `Aldebaran.Describes`: A file says what an automaton is.
* `Aldebaran.FirstFault`: The first line with a fault, and what stands around it.

## Theorems

* `foldlM_eq_error_iff`: A fold fails at the first element that fails.
* `Text.exists_of_lines_eq`: The place of a line in a text.
* `Aldebaran.Reading.Holds.advance`: What is known after one more line.
* `Aldebaran.Reading.foldlM_eq_ok_iff`: How far a reader comes.
* `Aldebaran.read_eq_foldlM`: Reading is a fold over the lines.
* `Aldebaran.describes_of_read`: What is known of a file that is read.
* `Aldebaran.missing_or_firstFault`: A fault is that of a line, or there is no header.
* `Aldebaran.FirstFault.read_eq`: What follows a line with a fault does not matter.
-/

universe u v w

namespace WordAutomata

/-- A fold fails at the first element that fails, with what was there by then. -/
theorem foldlM_eq_error_iff {σ : Type u} {α : Type v} {ε : Type w} {f : σ → α → Except ε σ}
    {l : List α} {s : σ} {e : ε} : l.foldlM f s = .error e ↔
      ∃ front a back t, l = front ++ a :: back ∧ front.foldlM f s = .ok t ∧ f t a = .error e := by
  induction l generalizing s with
  | nil =>
      constructor
      · intro h
        cases h
      · rintro ⟨front, a, back, _, h, _⟩
        exact absurd h.symm (List.append_ne_nil_of_right_ne_nil front (List.cons_ne_nil a back))
  | cons b l ih =>
      rw [List.foldlM_cons]
      cases hb : f s b with
      | error e' =>
          constructor
          · intro h
            cases h
            exact ⟨[], b, l, s, rfl, rfl, hb⟩
          · rintro ⟨front, a, back, t, h, hfront, ha⟩
            cases front with
            | nil =>
                cases h
                cases hfront
                rw [hb] at ha
                cases ha
                rfl
            | cons c front =>
                cases h
                -- The fold over the front would have failed at its first element.
                rw [List.foldlM_cons, hb] at hfront
                cases hfront
      | ok s' =>
          show l.foldlM f s' = .error e ↔ _
          rw [ih]
          constructor
          · rintro ⟨front, a, back, t, rfl, hfront, ha⟩
            refine ⟨b :: front, a, back, t, rfl, ?_, ha⟩
            rw [List.foldlM_cons, hb]
            exact hfront
          · rintro ⟨front, a, back, t, h, hfront, ha⟩
            cases front with
            | nil =>
                cases h
                cases hfront
                rw [hb] at ha
                cases ha
            | cons c front =>
                cases h
                rw [List.foldlM_cons, hb] at hfront
                exact ⟨front, a, back, t, rfl, hfront, ha⟩

namespace Text

variable {α : Type u} [DecidableEq α] {feed ret : α}

/-- A text without a feed is one line or none. -/
theorem lines_eq_of_not_mem {l : List α} (h : feed ∉ l) :
    lines feed ret l = if l = [] then [] else [l] := by
  by_cases hnil : l = []
  · rw [if_pos hnil, hnil]
    rfl
  · rw [if_neg hnil, lines_of_not_mem h hnil]

/-- Where a line stands in a text: behind lines that are ended by feeds, and in front of a
    feed or at the end. -/
theorem exists_of_lines_eq {before after : List (List α)} {line l : List α}
    (h : lines feed ret l = before ++ line :: after) :
    ∃ (parts : List (List α)) (part back : List α), (∀ p ∈ parts, feed ∉ p) ∧ feed ∉ part ∧
      l = parts.flatMap (· ++ [feed]) ++ (part ++ back) ∧ parts.map (dropReturn ret) = before ∧
      ((back = [] ∧ line = part) ∨ ∃ rest, back = feed :: rest ∧ line = dropReturn ret part) := by
  induction before generalizing l with
  | nil =>
      by_cases hfeed : feed ∈ l
      · rcases List.eq_append_cons_of_mem hfeed with ⟨part, rest, rfl, hpart⟩
        rw [lines_append_cons hpart, List.nil_append, List.cons.injEq] at h
        exact ⟨[], part, feed :: rest, List.forall_mem_nil _, hpart, rfl, rfl,
          .inr ⟨rest, rfl, h.1.symm⟩⟩
      · rw [lines_eq_of_not_mem hfeed] at h
        split at h
        · cases h
        · cases h
          exact ⟨[], line, [], List.forall_mem_nil _, hfeed, (List.append_nil line).symm, rfl,
            .inl ⟨rfl, rfl⟩⟩
  | cons first before ih =>
      by_cases hfeed : feed ∈ l
      · rcases List.eq_append_cons_of_mem hfeed with ⟨front, rest, rfl, hfront⟩
        rw [lines_append_cons hfront, List.cons_append, List.cons.injEq] at h
        rcases ih h.2 with ⟨parts, part, back, hparts, hpart, rfl, hbefore, hback⟩
        refine ⟨front :: parts, part, back, List.forall_mem_cons.2 ⟨hfront, hparts⟩, hpart, ?_, ?_,
          hback⟩
        · simp only [List.flatMap_cons, List.append_assoc, List.cons_append, List.nil_append]
        · rw [List.map_cons, hbefore, h.1]
      · -- There is one line at most, and this one is the second at least.
        rw [lines_eq_of_not_mem hfeed] at h
        split at h
        · cases h
        · cases before with
          | nil => cases h
          | cons second before => cases h

end Text

namespace Aldebaran

open Text

section Outcomes

variable {ε : Type u} {α β : Type v} {x : Except ε α} {e : ε}

theorem map_eq_ok {f : α → β} {b : β} : x.map f = .ok b ↔ ∃ a, x = .ok a ∧ f a = b := by
  cases x with
  | error e => simp only [Except.map, reduceCtorEq, false_and, exists_false]
  | ok a => simp only [Except.map, Except.ok.injEq, exists_eq_left']

theorem map_eq_error {f : α → β} : x.map f = .error e ↔ x = .error e := by
  cases x with
  | error e' => simp only [Except.map, Except.error.injEq]
  | ok a => simp only [Except.map, reduceCtorEq]

/-- Two steps do not have a fault that neither of them has. -/
theorem bind_ne_error {f : α → Except ε β} (hx : x ≠ .error e) (hf : ∀ a, f a ≠ .error e) :
    (x >>= f) ≠ .error e := by
  cases x with
  | error e' =>
      intro h
      cases h
      exact hx rfl
  | ok a => exact hf a

end Outcomes

variable {silent : List (List Char)}

/-! ## Faults -/

theorem readNumber_ne_invalidHeader {s : List Char} {fault : HeaderFault} :
    readNumber s ≠ .error (.invalidHeader fault) := by
  unfold readNumber
  cases Text.readNatural s <;>
    simp only [Except.mapError, ne_eq, reduceCtorEq, Except.error.injEq, not_false_eq_true]

/-- A line is never the fault that there is no header. -/
theorem readHeader_ne_missing {s : List Char} :
    readHeader s ≠ .error (.invalidHeader .missing) := by
  unfold readHeader
  split
  · simp only [ne_eq, Except.error.injEq, ReadError.invalidHeader.injEq, reduceCtorEq,
      not_false_eq_true]
  · refine bind_ne_error readNumber_ne_invalidHeader fun initial => ?_
    refine bind_ne_error readNumber_ne_invalidHeader fun transitions => ?_
    refine bind_ne_error readNumber_ne_invalidHeader fun states => ?_
    split <;> intro h <;> cases h

/-- No fault behind the header is one of the header. -/
theorem readTransition_ne_invalidHeader {states : Nat} {line : List Char} {fault : HeaderFault} :
    readTransition states silent line ≠ .error (.invalidHeader fault) := by
  have hlabel : ∀ label, readLabel silent label ≠ .error (.invalidHeader fault) := by
    intro label
    unfold readLabel
    split
    · intro h
      cases h
    · split <;> intro h <;> cases h
  unfold readTransition
  split
  · intro h
    cases h
  · refine bind_ne_error readNumber_ne_invalidHeader fun source => ?_
    refine bind_ne_error readNumber_ne_invalidHeader fun target => ?_
    split
    · refine bind_ne_error (hlabel _) fun symbol => ?_
      intro h
      cases h
    · intro h
      cases h

theorem readLine_ne_invalidHeader {line : List UInt8} {fault : HeaderFault} :
    readLine line ≠ .error (.invalidHeader fault) := by
  unfold readLine
  cases decodeLine? line <;>
    simp only [ne_eq, reduceCtorEq, Except.error.injEq, not_false_eq_true]

/-! ## Blank lines -/

/-- Whether the bytes of a line are white space. -/
def isBlankLine (line : List UInt8) : Bool := (decodeLine? line).any isBlankText

/-- A line is read as nothing if it is blank. -/
theorem readRule_eq_none_iff {states : Nat} {line : List UInt8} :
    readRule states silent line = .ok none ↔ isBlankLine line = true := by
  unfold readRule readLine isBlankLine
  cases decodeLine? line with
  | none => simp only [reduceCtorEq, Option.any_none, Bool.false_eq_true]
  | some s =>
      cases hblank : isBlankText s with
      | true => simp only [if_true, Option.any_some, hblank]
      | false =>
          -- Something is read then, or there is a fault.
          cases hread : readTransition states silent s with
          | error e => simp [Except.map, hblank, hread]
          | ok r => simp [Except.map, hblank, hread]

theorem readLine_eq_ok_iff {line : List UInt8} {s : List Char} :
    readLine line = .ok s ↔ decodeLine? line = some s := by
  unfold readLine
  cases decodeLine? line with
  | none => simp only [reduceCtorEq]
  | some t => simp only [Except.ok.injEq, Option.some.injEq]

/-! ## Readers -/

/-- How far a reader has come. -/
inductive Reading where
  /-- No line but blank ones. -/
  | start
  /-- A header and some rules. -/
  | body (header : Header) (rules : List (Finite.Rule StateIndex))

namespace Reading

/-- What one more line does. -/
def advance (silent : List (List Char)) : Reading → List UInt8 → Except ReadError Reading
  | start, line =>
    match readLine line with
    | .error e => .error e
    | .ok s =>
      if isBlankText s then .ok start else (readHeader s).map fun header => body header []
  | body header rules, line =>
    (readRule header.states silent line).map fun found => body header (rules ++ found.toList)

/-- What is described once there are no more lines. -/
def finish : Reading → Except ReadError Automaton
  | start => .error (.invalidHeader .missing)
  | body header rules => .ok ⟨⟨header.initial⟩, header.states, .ofRules rules⟩

/-- What is known after some lines. -/
def Holds (silent : List (List Char)) (done : List (List UInt8)) : Reading → Prop
  | start => ∀ line ∈ done, isBlankLine line = true
  | body header rules => ∃ blanks head s lines, done = blanks ++ head :: lines ∧
      (∀ line ∈ blanks, isBlankLine line = true) ∧ isBlankLine head = false ∧
      decodeLine? head = some s ∧ readHeader s = .ok header ∧
      List.Forall₂ (fun line r => readRule header.states silent line = .ok (some r))
        (lines.filter fun line => !isBlankLine line) rules

/-- What is known after one more line. -/
theorem Holds.advance {done : List (List UInt8)} {line : List UInt8} {reading next : Reading}
    (h : reading.Holds silent done) (hnext : reading.advance silent line = .ok next) :
    next.Holds silent (done ++ [line]) := by
  cases reading with
  | start =>
      rw [Reading.advance] at hnext
      cases hs : readLine line with
      | error e =>
          rw [hs] at hnext
          cases hnext
      | ok s =>
          rw [hs] at hnext
          have hdecode := readLine_eq_ok_iff.1 hs
          have hline : isBlankLine line = isBlankText s := by
            rw [isBlankLine, hdecode, Option.any_some]
          by_cases hblank : isBlankText s = true
          · simp only [if_pos hblank] at hnext
            cases hnext
            rw [← hline] at hblank
            intro line' hline'
            rcases List.mem_append.1 hline' with hline' | hline'
            · exact h line' hline'
            · rw [List.mem_singleton.1 hline', hblank]
          · simp only [if_neg hblank] at hnext
            rcases map_eq_ok.1 hnext with ⟨header, hheader, rfl⟩
            rw [Bool.not_eq_true, ← hline] at hblank
            exact ⟨done, line, s, [], rfl, h, hblank, hdecode, hheader, .nil⟩
  | body header rules =>
      rcases map_eq_ok.1 hnext with ⟨found, hfound, rfl⟩
      rcases h with ⟨blanks, head, s, lines, rfl, hblanks, hhead, hs, hheader, hrules⟩
      refine ⟨blanks, head, s, lines ++ [line], ?_, hblanks, hhead, hs, hheader, ?_⟩
      · rw [List.append_assoc, List.cons_append]
      · rw [List.filter_append]
        cases found with
        | none =>
            have hnone : [line].filter (fun line => !isBlankLine line) = [] := by
              rw [List.filter_singleton, readRule_eq_none_iff.1 hfound]
              rfl
            rw [hnone, List.append_nil, Option.toList_none, List.append_nil]
            exact hrules
        | some r =>
            have hblank : isBlankLine line = false := by
              rw [Bool.eq_false_iff]
              intro hblank
              rw [← readRule_eq_none_iff, hfound] at hblank
              cases hblank
            rw [List.filter_singleton, hblank]
            exact List.rel_append hrules (.cons hfound .nil)

/-- Nothing is known in front of the first line. -/
theorem holds_start : start.Holds silent [] := List.forall_mem_nil _

/-- What is known after some more lines. -/
theorem holds_of_foldlM {done lines : List (List UInt8)} {reading last : Reading}
    (h : reading.Holds silent done)
    (hlast : lines.foldlM (Reading.advance silent) reading = .ok last) :
    last.Holds silent (done ++ lines) := by
  induction lines generalizing done reading with
  | nil =>
      cases hlast
      rw [List.append_nil]
      exact h
  | cons line lines ih =>
      rw [List.foldlM_cons] at hlast
      rcases bind_eq_ok.1 hlast with ⟨next, hnext, hlast⟩
      rw [← List.singleton_append, ← List.append_assoc]
      exact ih (h.advance hnext) hlast

/-- Blank lines do not matter. -/
theorem advance_of_isBlankLine {reading : Reading} {line : List UInt8}
    (h : isBlankLine line = true) : reading.advance silent line = .ok reading := by
  cases reading with
  | start =>
      rw [isBlankLine, Option.any_eq_true] at h
      rcases h with ⟨s, hs, hblank⟩
      rw [advance, readLine_eq_ok_iff.2 hs]
      simp only [if_pos hblank]
  | body header rules =>
      rw [advance, readRule_eq_none_iff.2 h, Except.map, Option.toList_none, List.append_nil]

theorem foldlM_of_isBlankLine {reading : Reading} {lines : List (List UInt8)}
    (h : ∀ line ∈ lines, isBlankLine line = true) :
    lines.foldlM (Reading.advance silent) reading = .ok reading := by
  induction lines with
  | nil => rfl
  | cons line lines ih =>
      rw [List.forall_mem_cons] at h
      rw [List.foldlM_cons, advance_of_isBlankLine h.1]
      exact ih h.2

theorem foldlM_of_rules {header : Header} {before rules : List (Finite.Rule StateIndex)}
    {lines : List (List UInt8)}
    (h : List.Forall₂ (fun line r => readRule header.states silent line = .ok (some r))
      (lines.filter fun line => !isBlankLine line) rules) :
    lines.foldlM (Reading.advance silent) (body header before) =
      .ok (body header (before ++ rules)) := by
  -- The lines are all of the lines, the rules only belong to those that are not blank.
  induction lines generalizing before rules with
  | nil =>
      cases h
      rw [List.append_nil]
      rfl
  | cons line lines ih =>
      rw [List.foldlM_cons]
      rw [List.filter_cons] at h
      cases hblank : isBlankLine line with
      | true =>
          rw [hblank] at h
          rw [advance_of_isBlankLine hblank]
          exact ih h
      | false =>
          rw [hblank] at h
          cases h with
          | @cons _ r _ rules hread hrules =>
              rw [advance, hread]
              show lines.foldlM _ (body header (before ++ [r])) = _
              rw [ih hrules, List.append_assoc, List.singleton_append]

/-- No more is needed to come this far. -/
theorem foldlM_of_holds {lines : List (List UInt8)} {last : Reading}
    (h : last.Holds silent lines) :
    lines.foldlM (Reading.advance silent) start = .ok last := by
  cases last with
  | start => exact foldlM_of_isBlankLine h
  | body header rules =>
      rcases h with ⟨blanks, head, s, lines, rfl, hblanks, hhead, hs, hheader, hrules⟩
      have hblank : isBlankText s = false := by
        rw [isBlankLine, hs, Option.any_some] at hhead
        exact hhead
      have hadvance : start.advance silent head = .ok (body header []) := by
        rw [advance, readLine_eq_ok_iff.2 hs]
        simp only [hblank, Bool.false_eq_true, if_false, hheader]
        rfl
      have hbody : (head :: lines).foldlM (Reading.advance silent) start =
          .ok (body header rules) := by
        rw [List.foldlM_cons, hadvance]
        exact foldlM_of_rules hrules
      rw [List.foldlM_append, foldlM_of_isBlankLine hblanks]
      exact hbody

/-- How far a reader comes on some lines. -/
theorem foldlM_eq_ok_iff {lines : List (List UInt8)} {last : Reading} :
    lines.foldlM (Reading.advance silent) start = .ok last ↔ last.Holds silent lines :=
  ⟨holds_of_foldlM holds_start, foldlM_of_holds⟩

/-- A line is never the fault that there is no header. -/
theorem advance_ne_missing {line : List UInt8} {reading : Reading} :
    reading.advance silent line ≠ .error (.invalidHeader .missing) := by
  cases reading with
  | start =>
      rw [advance]
      cases hline : readLine line with
      | error e =>
          intro h
          cases h
          exact readLine_ne_invalidHeader hline
      | ok s =>
          by_cases hblank : isBlankText s = true
          · simp only [if_pos hblank, ne_eq, reduceCtorEq, not_false_eq_true]
          · simp only [if_neg hblank, ne_eq, map_eq_error]
            exact readHeader_ne_missing
  | body header rules =>
      rw [advance, ne_eq, map_eq_error, readRule]
      cases hline : readLine line with
      | error e =>
          intro h
          cases h
          exact readLine_ne_invalidHeader hline
      | ok s =>
          by_cases hblank : isBlankText s = true
          · simp only [if_pos hblank, reduceCtorEq, not_false_eq_true]
          · simp only [if_neg hblank, map_eq_error]
            exact readTransition_ne_invalidHeader

/-- Behind a header, the fold comes to the same rules and the same fault. -/
theorem foldlM_body {header : Header} {before rules : List (Finite.Rule StateIndex)}
    {lines : List (List UInt8)} {fault : Option ReadError}
    (h : readRules header.states silent before lines = (rules, fault)) :
    lines.foldlM (Reading.advance silent) (body header before.reverse) =
      fault.elim (.ok (body header rules)) .error := by
  induction lines generalizing before with
  | nil =>
      cases h
      rfl
  | cons line lines ih =>
      rw [readRules] at h
      rw [List.foldlM_cons, advance]
      cases hread : readRule header.states silent line with
      | error e =>
          rw [hread] at h
          cases h
          rfl
      | ok found =>
          rw [hread] at h
          cases found with
          | none =>
              -- A blank line adds no rule.
              rw [← ih h]
              show lines.foldlM _ (body header (before.reverse ++ [])) = _
              rw [List.append_nil]
          | some r =>
              rw [← ih h, List.reverse_cons]
              rfl

/-- In front of a header, blank lines are passed over. -/
theorem foldlM_start {lines : List (List UInt8)} :
    lines.foldlM (Reading.advance silent) start >>= finish =
      readHead lines >>= fun head =>
        head.2.foldlM (Reading.advance silent) (body head.1 []) >>= finish := by
  induction lines with
  | nil => rfl
  | cons line lines ih =>
      rw [List.foldlM_cons, advance, readHead, splitHeader]
      cases hline : readLine line with
      | error e => rfl
      | ok s =>
          by_cases hblank : isBlankText s = true
          · simp only [if_pos hblank]
            exact ih
          · simp only [if_neg hblank]
            show (((readHeader s).map fun header => body header []) >>= _) >>= _ =
              (readHeader s >>= fun header => .ok (header, lines)) >>= _
            cases readHeader s with
            | error e => rfl
            | ok header => rfl

end Reading

/-- Reading a file is a fold over its lines. -/
theorem read_eq_foldlM {bytes : List UInt8} : read silent bytes =
    (byteLines bytes).foldlM (Reading.advance silent) .start >>= Reading.finish := by
  rw [Reading.foldlM_start]
  cases hhead : readHead (byteLines bytes) with
  | error e =>
      unfold read readNoting
      rw [hhead]
      rfl
  | ok head =>
      rcases head with ⟨header, lines⟩
      show _ = lines.foldlM (Reading.advance silent) (.body header []) >>= Reading.finish
      cases hrules : readRules header.states silent [] lines with
      | mk rules fault =>
          have hfold : lines.foldlM (Reading.advance silent) (.body header []) =
              fault.elim (.ok (.body header rules)) .error := Reading.foldlM_body hrules
          rw [hfold]
          cases fault with
          | none => exact read_of_readRules hhead hrules
          | some e => exact read_of_fault hhead hrules

/-! ## Files that are read -/

/-- The initial state is one of those that the header announces. -/
theorem initial_lt_of_readHeader {s : List Char} {header : Header}
    (h : readHeader s = .ok header) : header.initial < header.states := by
  unfold readHeader at h
  split at h
  · cases h
  · rcases bind_eq_ok.1 h with ⟨initial, _, h⟩
    rcases bind_eq_ok.1 h with ⟨transitions, _, h⟩
    rcases bind_eq_ok.1 h with ⟨states, _, h⟩
    split at h
    · cases h
      assumption
    · cases h

/-- A file says what an automaton is: there are blank lines, a header and, on the lines
    after it that are not blank, the rules in their order. -/
structure Describes (silent : List (List Char)) (bytes : List UInt8) (a : Automaton) : Prop where
  initial_lt : a.initial.value < a.states
  source_lt : ∀ r ∈ a.rulebook.rules, r.source.value < a.states
  target_lt : ∀ r ∈ a.rulebook.rules, r.target.value < a.states
  not_feed : ∀ r ∈ a.rulebook.rules, r.symbol ≠ .character '\n'
  lines : ∃ header, header.initial = a.initial.value ∧ header.states = a.states ∧
    (Reading.body header a.rulebook.rules).Holds silent (byteLines bytes)

/-- What is known of the lines of a file if it is read. -/
theorem describes_of_read {bytes : List UInt8} {a : Automaton} (h : read silent bytes = .ok a) :
    Describes silent bytes a := by
  have hplain := plain_of_read h
  rw [read_eq_foldlM] at h
  rcases bind_eq_ok.1 h with ⟨last, hlast, hfinish⟩
  have hholds := Reading.holds_of_foldlM Reading.holds_start hlast
  cases last with
  | start => cases hfinish
  | body header rules =>
      cases hfinish
      have hlines := hholds
      rcases hholds with ⟨_, _, _, lines, _, _, _, _, hheader, hrules⟩
      have hends : ∀ r ∈ rules,
          r.source.value < header.states ∧ r.target.value < header.states := by
        intro r hr
        rcases List.mem_iff_get.1 hr with ⟨⟨i, hi⟩, rfl⟩
        have hi' : i < (lines.filter fun line => !isBlankLine line).length := by
          rw [hrules.length_eq]
          exact hi
        rcases readRule_some (hrules.get hi' hi) with ⟨_, _, htransition⟩
        rcases readTransition_ok htransition with ⟨_, _, _, _, _, _, hsource, htarget, _⟩
        exact ⟨hsource, htarget⟩
      exact {
        initial_lt := initial_lt_of_readHeader hheader
        source_lt := fun r hr => (hends r hr).1
        target_lt := fun r hr => (hends r hr).2
        not_feed := fun r hr hfeed => (hplain r hr _ hfeed).1 rfl
        lines := ⟨header, rfl, rfl, hlines⟩ }

/-! ## Files with a fault -/

/-- The first line with a fault, and what stands around it. The lines before it are
    without a fault. -/
structure FirstFault (silent : List (List Char)) (bytes : List UInt8) (e : ReadError)
    (before : List (List UInt8)) (line back : List UInt8) : Prop where
  bytes_eq : bytes = before.flatMap (· ++ [10]) ++ (line ++ back)
  before_not_mem : ∀ part ∈ before, 10 ∉ part
  line_not_mem : 10 ∉ line
  back_eq : back = [] ∨ ∃ rest, back = 10 :: rest
  fault : ∃ reading : Reading, reading.Holds silent (before.map (dropReturn 13)) ∧
    reading.advance silent (if back = [] then line else dropReturn 13 line) = .error e

/-- A file is read up to the first line with a fault. If a line feed ends the line, then
    what follows does not matter. -/
theorem FirstFault.read_eq {bytes rest other : List UInt8} {e : ReadError}
    {before : List (List UInt8)} {line : List UInt8}
    (h : FirstFault silent bytes e before line (10 :: rest)) :
    read silent (before.flatMap (· ++ [10]) ++ (line ++ 10 :: other)) = .error e := by
  rcases h.fault with ⟨reading, hholds, hfault⟩
  rw [if_neg (List.cons_ne_nil 10 rest)] at hfault
  have hfold : (byteLines (before.flatMap (· ++ [10]) ++ (line ++ 10 :: other))).foldlM
      (Reading.advance silent) .start = .error e := by
    rw [byteLines, lines_flatMap_append h.before_not_mem, lines_append_cons h.line_not_mem]
    exact foldlM_eq_error_iff.2
      ⟨_, _, _, reading, rfl, Reading.foldlM_eq_ok_iff.2 hholds, hfault⟩
  rw [read_eq_foldlM, hfold]
  rfl

/-- A fault is that of a line, or there is no header. -/
theorem missing_or_firstFault {bytes : List UInt8} {e : ReadError}
    (h : read silent bytes = .error e) :
    (e = .invalidHeader .missing ∧ ∀ line ∈ byteLines bytes, isBlankLine line = true) ∨
      e ≠ .invalidHeader .missing ∧
        ∃ before line back, FirstFault silent bytes e before line back := by
  rw [read_eq_foldlM] at h
  cases hfold : (byteLines bytes).foldlM (Reading.advance silent) .start with
  | ok last =>
      -- No line has a fault, so it is the end that has one.
      rw [hfold] at h
      rw [Reading.foldlM_eq_ok_iff] at hfold
      cases last with
      | start =>
          cases h
          exact .inl ⟨rfl, hfold⟩
      | body header rules => cases h
  | error e' =>
      rw [hfold] at h
      cases h
      rcases foldlM_eq_error_iff.1 hfold with ⟨front, line, after, reading, hlines, hfront, hfault⟩
      rcases exists_of_lines_eq hlines with ⟨before, part, back, hbefore, hpart, hbytes, rfl, hback⟩
      rw [Reading.foldlM_eq_ok_iff] at hfront
      have hne : e ≠ .invalidHeader .missing := fun he => Reading.advance_ne_missing (he ▸ hfault)
      refine .inr ⟨hne, before, part, back, hbytes, hbefore, hpart, ?_, reading, hfront, ?_⟩
      · rcases hback with ⟨hback, _⟩ | ⟨rest, hback, _⟩
        · exact .inl hback
        · exact .inr ⟨rest, hback⟩
      · rcases hback with ⟨rfl, rfl⟩ | ⟨rest, rfl, rfl⟩
        · rw [if_pos rfl]
          exact hfault
        · rw [if_neg (List.cons_ne_nil 10 rest)]
          exact hfault

end Aldebaran

end WordAutomata
