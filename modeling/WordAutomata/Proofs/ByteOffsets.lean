import WordAutomata.Proofs.LineByLine
import WordAutomata.Proofs.LineParts
import Mathlib

/-!
# Byte Offsets

A place in a text can be told by the characters in front of it or by their bytes. There
are more bytes than characters, and a number of bytes may be no place at all: it may lie
within a character, or behind the end. To cut a text there is an error.

A line is taken apart at commas and parentheses. These are a byte each, so there is a
place in front of them and one behind them. The quotes around a label are a byte each as
well. So the bytes lead to the same parts as the characters do, and where a part is
taken without a check there is nothing to check. A reader that counts bytes does not
crash, whatever the file.

## Main definitions

* `Text.byteLength`: The number of bytes of a text.
* `Text.cutAt?`, `slice?`: Cutting a text after some bytes.
* `Text.IsBoundary`: A number of bytes that is a place.
* `Text.firstByte?`, `lastByte?`: How many bytes stand in front of a character.
* `Aldebaran.fieldsByBytes`: The fields of a line, cut by bytes.
* `Aldebaran.readByBytes`: A reader that cuts by bytes, and may crash.

## Theorems

* `Text.cutAt?_eq_some_iff`: What cutting comes to.
* `Text.slice?_take`: A part of a text, by bytes and by characters.
* `Aldebaran.firstByte?_eq`, `lastByte?_eq`: Places by bytes and by characters.
* `Aldebaran.fieldsByBytes_eq`, `readByBytes_eq`: Counting bytes makes no difference.
* `Aldebaran.read_describes_or_stops`: What becomes of a file.
-/

namespace WordAutomata

namespace Text

/-! ## Cutting by bytes -/

/-- The number of bytes of a text. -/
def byteLength (s : List Char) : Nat := (encoded s).length

theorem byteLength_append (s t : List Char) :
    byteLength (s ++ t) = byteLength s + byteLength t := by
  rw [byteLength, encoded_append, List.length_append]
  rfl

theorem byteLength_cons (c : Char) (s : List Char) :
    byteLength (c :: s) = c.utf8Size + byteLength s := by
  rw [byteLength, encoded, List.flatMap_cons, List.length_append, String.length_utf8EncodeChar]
  rfl

theorem byteLength_pos {s : List Char} (h : s ≠ []) : 0 < byteLength s :=
  List.length_pos_iff.2 (mt encoded_eq_nil_iff.1 h)

/-- Cuts a text after a number of bytes, unless that is no place in it. -/
def cutAt? : List Char → Nat → Option (List Char × List Char)
  | s, 0 => some ([], s)
  | [], _ + 1 => none
  | c :: s, n + 1 =>
    if c.utf8Size ≤ n + 1 then
      (cutAt? s (n + 1 - c.utf8Size)).map fun (front, back) => (c :: front, back)
    else none

theorem cutAt?_zero (s : List Char) : cutAt? s 0 = some ([], s) := by
  rw [cutAt?]

theorem cutAt?_cons {c : Char} {n : Nat} (s : List Char) (h : 0 < n) :
    cutAt? (c :: s) n =
      if c.utf8Size ≤ n then
        (cutAt? s (n - c.utf8Size)).map fun (front, back) => (c :: front, back)
      else none := by
  cases n with
  | zero => omega
  | succ n => rfl

/-- A text can be cut behind any part in front. -/
theorem cutAt?_byteLength (front back : List Char) :
    cutAt? (front ++ back) (byteLength front) = some (front, back) := by
  induction front with
  | nil => exact cutAt?_zero back
  | cons c front ih =>
      have hpos := c.utf8Size_pos
      rw [byteLength_cons, List.cons_append, cutAt?_cons _ (by omega), if_pos (by omega),
        Nat.add_sub_cancel_left, ih]
      rfl

/-- What cutting comes to. -/
theorem cutAt?_eq_some_iff {s front back : List Char} {n : Nat} :
    cutAt? s n = some (front, back) ↔ s = front ++ back ∧ byteLength front = n := by
  constructor
  · intro h
    induction s generalizing front n with
    | nil =>
        cases n with
        | zero =>
            cases h
            exact ⟨rfl, rfl⟩
        | succ n => cases h
    | cons c s ih =>
        by_cases hn : n = 0
        · subst hn
          rw [cutAt?_zero] at h
          cases h
          exact ⟨rfl, rfl⟩
        · rw [cutAt?_cons s (by omega)] at h
          split at h
          · rcases Option.map_eq_some_iff.1 h with ⟨⟨front', back'⟩, hcut, hparts⟩
            cases hparts
            rcases ih hcut with ⟨rfl, hlength⟩
            refine ⟨rfl, ?_⟩
            rw [byteLength_cons]
            omega
          · cases h
  · rintro ⟨rfl, rfl⟩
    exact cutAt?_byteLength front back

/-- A number of bytes is a place in a text: it is neither within a character nor behind
    the end. -/
def IsBoundary (s : List Char) (n : Nat) : Prop :=
  ∃ front back, s = front ++ back ∧ byteLength front = n

/-- The part of a text from one place up to another. There is none if one of them is no
    place, or if they are the wrong way round. -/
def slice? (s : List Char) (first last : Nat) : Option (List Char) := do
  let (front, _) ← cutAt? s last
  let (_, part) ← cutAt? front first
  return part

theorem slice?_append (front part back : List Char) :
    slice? (front ++ (part ++ back)) (byteLength front) (byteLength (front ++ part)) =
      some part := by
  have hlast : cutAt? (front ++ (part ++ back)) (byteLength (front ++ part)) =
      some (front ++ part, back) := by
    rw [← List.append_assoc, cutAt?_byteLength]
  have hfirst := cutAt?_byteLength front part
  simp only [slice?, hlast, hfirst, Option.bind_eq_bind, Option.bind_some, Option.pure_def]

theorem slice?_of_lt {s : List Char} {first last : Nat} (h : last < first) :
    slice? s first last = none := by
  unfold slice?
  cases hlast : cutAt? s last with
  | none => rfl
  | some parts =>
      rcases parts with ⟨front, back⟩
      rcases cutAt?_eq_some_iff.1 hlast with ⟨rfl, hlength⟩
      -- The text is cut at the last place first, and what is left is too short for the other.
      have hfirst : cutAt? front first = none := by
        rw [Option.eq_none_iff_forall_ne_some]
        rintro ⟨front', back'⟩ hsome
        rcases cutAt?_eq_some_iff.1 hsome with ⟨rfl, hlength'⟩
        rw [byteLength_append] at hlength
        omega
      simp only [Option.bind_eq_bind, Option.bind_some, hfirst, Option.bind_none]

/-- How many bytes stand in front of the first occurrence of a character. -/
def firstByte? (c : Char) : List Char → Option Nat
  | [] => none
  | d :: s => if d = c then some 0 else (firstByte? c s).map (d.utf8Size + ·)

/-- How many bytes stand in front of the last occurrence of a character. -/
def lastByte? (c : Char) : List Char → Option Nat
  | [] => none
  | d :: s =>
    match lastByte? c s with
    | some n => some (d.utf8Size + n)
    | none => if d = c then some 0 else none

theorem firstByte?_of_not_mem {c : Char} {s : List Char} (h : c ∉ s) : firstByte? c s = none := by
  induction s with
  | nil => rfl
  | cons d s ih =>
      rw [List.mem_cons, not_or] at h
      rw [firstByte?, if_neg (Ne.symm h.1), ih h.2, Option.map_none]

theorem lastByte?_of_not_mem {c : Char} {s : List Char} (h : c ∉ s) : lastByte? c s = none := by
  induction s with
  | nil => rfl
  | cons d s ih =>
      rw [List.mem_cons, not_or] at h
      rw [lastByte?, ih h.2]
      exact if_neg (Ne.symm h.1)

theorem firstByte?_append_cons {c : Char} {front back : List Char} (h : c ∉ front) :
    firstByte? c (front ++ c :: back) = some (byteLength front) := by
  induction front with
  | nil => exact if_pos rfl
  | cons d front ih =>
      rw [List.mem_cons, not_or] at h
      rw [List.cons_append, firstByte?, if_neg (Ne.symm h.1), ih h.2, byteLength_cons,
        Option.map_some]

theorem lastByte?_append_cons {c : Char} {front back : List Char} (h : c ∉ back) :
    lastByte? c (front ++ c :: back) = some (byteLength front) := by
  induction front with
  | nil =>
      rw [List.nil_append, lastByte?, lastByte?_of_not_mem h]
      exact if_pos rfl
  | cons d front ih => rw [List.cons_append, lastByte?, ih, byteLength_cons]

/-! ## Bytes and characters -/

theorem byteLength_take_add_one {s : List Char} {c : Char} {i : Nat} (h : s[i]? = some c) :
    byteLength (s.take (i + 1)) = byteLength (s.take i) + c.utf8Size := by
  rw [List.take_add_one, h, Option.toList_some, byteLength_append, byteLength_cons]
  rfl

/-- What a longer part has behind a shorter one. -/
theorem take_append_drop_take {i j : Nat} (h : i ≤ j) (s : List Char) :
    s.take i ++ (s.take j).drop i = s.take j := by
  have htake : (s.take j).take i = s.take i := by
    rw [List.take_take, Nat.min_eq_left h]
  rw [← htake, List.take_append_drop]

/-- More characters have more bytes. -/
theorem byteLength_take_lt {s : List Char} {i j : Nat} (h : i < j) (hj : j ≤ s.length) :
    byteLength (s.take i) < byteLength (s.take j) := by
  have hne : (s.take j).drop i ≠ [] := by
    rw [← List.length_pos_iff, List.length_drop, List.length_take]
    omega
  have hpos := byteLength_pos hne
  rw [← take_append_drop_take (Nat.le_of_lt h) s, byteLength_append]
  omega

/-- A character and the place behind it, by bytes. -/
theorem isBoundary_of_getElem? {s : List Char} {c : Char} {i : Nat} (h : s[i]? = some c)
    (hc : c.utf8Size = 1) : IsBoundary s (byteLength (s.take i)) ∧
      IsBoundary s (byteLength (s.take i) + 1) := by
  refine ⟨⟨s.take i, s.drop i, (List.take_append_drop i s).symm, rfl⟩, ?_⟩
  refine ⟨s.take (i + 1), s.drop (i + 1), (List.take_append_drop (i + 1) s).symm, ?_⟩
  rw [byteLength_take_add_one h, hc]

end Text

namespace Aldebaran

open Text

section Places

variable {c : Char} {s : List Char} {i j : Nat}

/-- A part of a text, by bytes and by characters. -/
theorem slice?_take (hi : i ≤ s.length) :
    slice? s (byteLength (s.take i)) (byteLength (s.take j)) = between? s i j := by
  by_cases hle : i ≤ j
  · have hfront := take_append_drop_take hle s
    have hsplit : s.take i ++ ((s.take j).drop i ++ s.drop j) = s := by
      rw [← List.append_assoc, hfront, List.take_append_drop]
    have hslice := slice?_append (s.take i) ((s.take j).drop i) (s.drop j)
    rw [hfront, hsplit] at hslice
    rw [hslice, between?, if_pos hle]
  · -- The places are the wrong way round, by bytes as well as by characters.
    rw [slice?_of_lt (byteLength_take_lt (by omega) hi), between?, if_neg hle]

/-- A part of a text that begins behind a mark. -/
theorem slice?_mark (h : s[i]? = some c) (hc : c.utf8Size = 1) :
    slice? s (byteLength (s.take i) + 1) (byteLength (s.take j)) = between? s (i + 1) j := by
  have hlt : i < s.length := (List.getElem?_eq_some_iff.1 h).1
  have hmark := byteLength_take_add_one h
  rw [hc] at hmark
  rw [← hmark]
  exact slice?_take hlt

/-- A text that has a character has a last one. -/
theorem exists_last_of_mem (h : c ∈ s) : ∃ front back, s = front ++ c :: back ∧ c ∉ back := by
  rcases List.eq_append_cons_of_mem (List.mem_reverse.2 h) with ⟨back, front, hs, hback⟩
  refine ⟨front.reverse, back.reverse, ?_, mt List.mem_reverse.1 hback⟩
  rw [← List.reverse_reverse s, hs, List.reverse_append, List.reverse_cons, List.append_assoc,
    List.singleton_append]

/-- The first place of a character, by bytes and by characters. -/
theorem firstByte?_eq (c : Char) (s : List Char) :
    firstByte? c s = (firstPlace? c s).map fun i => byteLength (s.take i) := by
  by_cases hmem : c ∈ s
  · rcases List.eq_append_cons_of_mem hmem with ⟨front, back, rfl, hfront⟩
    rw [firstByte?_append_cons hfront, firstPlace?_of_eq hfront rfl, Option.map_some,
      List.take_left]
  · rw [firstByte?_of_not_mem hmem, firstPlace?_of_not_mem hmem, Option.map_none]

/-- The last place of a character, by bytes and by characters. -/
theorem lastByte?_eq (c : Char) (s : List Char) :
    lastByte? c s = (lastPlace? c s).map fun i => byteLength (s.take i) := by
  by_cases hmem : c ∈ s
  · rcases exists_last_of_mem hmem with ⟨front, back, rfl, hback⟩
    rw [lastByte?_append_cons hback, lastPlace?_of_eq hback rfl, Option.map_some, List.take_left]
  · rw [lastByte?_of_not_mem hmem, lastPlace?_of_not_mem hmem, Option.map_none]

theorem getElem?_of_firstPlace? (h : firstPlace? c s = some i) : s[i]? = some c := by
  by_cases hmem : c ∈ s
  · rcases List.eq_append_cons_of_mem hmem with ⟨front, back, rfl, hfront⟩
    rw [firstPlace?_of_eq hfront rfl] at h
    cases h
    rw [List.getElem?_append_right (Nat.le_refl front.length), Nat.sub_self]
    rfl
  · rw [firstPlace?_of_not_mem hmem] at h
    cases h

theorem getElem?_of_lastPlace? (h : lastPlace? c s = some i) : s[i]? = some c := by
  by_cases hmem : c ∈ s
  · rcases exists_last_of_mem hmem with ⟨front, back, rfl, hback⟩
    rw [lastPlace?_of_eq hback rfl] at h
    cases h
    rw [List.getElem?_append_right (Nat.le_refl front.length), Nat.sub_self]
    rfl
  · rw [lastPlace?_of_not_mem hmem] at h
    cases h

end Places

/-! ## The fields of a line -/

/-- Taking a part of a text without a check, where there is no such part. -/
inductive Crash where
  | slice

/-- A label without the quotes around it. The part between them is taken without a check. -/
def unquoteByBytes (label : List Char) : Except Crash (List Char) :=
  if 2 ≤ byteLength label && label.head? = some '"' && label.getLast? = some '"' then
    match slice? label 1 (byteLength label - 1) with
    | some inner => .ok inner
    | none => .error .slice
  else .ok label

/-- The source, the label and the target on a line, cut by bytes. -/
def fieldsByBytes (line : List Char) : Except Crash (Option (List Char × List Char × List Char)) :=
  let parts? := do
    let opening ← firstByte? '(' line
    let comma ← firstByte? ',' line
    let lastComma ← lastByte? ',' line
    let closing ← lastByte? ')' line
    let source ← slice? line (opening + 1) comma
    let label ← slice? line (comma + 1) lastComma
    let target ← slice? line (lastComma + 1) closing
    return (trim source, trim label, trim target)
  match parts? with
  | none => .ok none
  | some (source, label, target) =>
    (unquoteByBytes label).map fun label => some (source, label, target)

/-- Quotes are a byte each, so there is a part between them. -/
theorem unquoteByBytes_eq (label : List Char) : unquoteByBytes label = .ok (unquote label) := by
  have hquote : byteLength ['"'] = 1 := rfl
  by_cases h : ∃ inner, label = '"' :: (inner ++ ['"'])
  · rcases h with ⟨inner, rfl⟩
    have hlength : byteLength ('"' :: (inner ++ ['"'])) = byteLength ('"' :: inner) + 1 := by
      rw [← List.cons_append, byteLength_append, hquote]
    have htwo : 2 ≤ byteLength ('"' :: (inner ++ ['"'])) := by
      have hpos := byteLength_pos (List.cons_ne_nil '"' inner)
      omega
    have hlast : ('"' :: (inner ++ ['"'])).getLast? = some '"' := by
      rw [← List.cons_append, List.getLast?_concat]
    have hslice : slice? ('"' :: (inner ++ ['"'])) 1
        (byteLength ('"' :: (inner ++ ['"'])) - 1) = some inner := by
      rw [hlength, Nat.add_sub_cancel]
      exact slice?_append ['"'] inner ['"']
    rw [unquoteByBytes, hslice, unquote_quoted]
    simp only [htwo, hlast, List.head?_cons, decide_true, Bool.and_true, if_true]
  · rw [not_exists] at h
    rw [unquote_of_ne h]
    apply if_neg
    intro hquotes
    simp only [Bool.and_eq_true, decide_eq_true_eq] at hquotes
    rcases hquotes with ⟨⟨htwo, hhead⟩, hlast⟩
    -- A lone quote is one byte, so that the length does not have to be counted in characters.
    rcases lone_or_quoted hhead hlast with rfl | ⟨inner, hinner⟩
    · omega
    · exact h inner hinner

/-- Counting bytes leads to the same fields, and without a crash. -/
theorem fieldsByBytes_eq (line : List Char) : fieldsByBytes line = .ok (fields? line) := by
  unfold fieldsByBytes fields?
  simp only [firstByte?_eq, lastByte?_eq]
  cases hopening : firstPlace? '(' line with
  | none => rfl
  | some opening =>
  cases hcomma : firstPlace? ',' line with
  | none => rfl
  | some comma =>
  cases hlast : lastPlace? ',' line with
  | none => rfl
  | some lastComma =>
  cases hclosing : lastPlace? ')' line with
  | none => rfl
  | some closing =>
  -- Each part begins behind a mark, which is one byte.
  simp only [Option.map_some, Option.bind_eq_bind, Option.bind_some,
    slice?_mark (getElem?_of_firstPlace? hopening) rfl,
    slice?_mark (getElem?_of_firstPlace? hcomma) rfl,
    slice?_mark (getElem?_of_lastPlace? hlast) rfl]
  -- From here on the parts are the same, and only the quotes are left.
  cases between? line (opening + 1) comma with
  | none => rfl
  | some source =>
  cases between? line (comma + 1) lastComma with
  | none => rfl
  | some label =>
  cases between? line (lastComma + 1) closing with
  | none => rfl
  | some target =>
  simp only [Option.bind_some, unquoteByBytes_eq]
  rfl

/-- The places where a line is cut are places in it. -/
theorem isBoundary_of_byte? {line : List Char} {c : Char} {n : Nat} (hc : c.utf8Size = 1)
    (h : firstByte? c line = some n ∨ lastByte? c line = some n) :
    IsBoundary line n ∧ IsBoundary line (n + 1) := by
  rcases h with h | h
  · rw [firstByte?_eq] at h
    rcases Option.map_eq_some_iff.1 h with ⟨i, hi, rfl⟩
    exact isBoundary_of_getElem? (getElem?_of_firstPlace? hi) hc
  · rw [lastByte?_eq] at h
    rcases Option.map_eq_some_iff.1 h with ⟨i, hi, rfl⟩
    exact isBoundary_of_getElem? (getElem?_of_lastPlace? hi) hc

/-! ## Files -/

variable {silent : List (List Char)}

/-- The rule with the given fields, if a line has them. -/
def ruleOf (states : Nat) (silent : List (List Char)) (line : List Char) :
    Option (List Char × List Char × List Char) → Except ReadError (Finite.Rule StateIndex)
  | none => .error (.invalidTransition line)
  | some (source, label, target) => do
    let source ← readNumber source
    let target ← readNumber target
    if source < states && target < states then
      let symbol ← readLabel silent label
      return ⟨⟨source⟩, symbol, ⟨target⟩⟩
    else throw (.invalidTransition line)

/-- What one more line does to a reader that cuts it by bytes. -/
def Reading.advanceByBytes (silent : List (List Char)) :
    Reading → List UInt8 → Except Crash (Except ReadError Reading)
  | start, line => .ok (start.advance silent line)
  | body header rules, line =>
    match readLine line with
    | .error e => .ok (.error e)
    | .ok s =>
      if isBlankText s then .ok (.ok (body header rules))
      else
        (fieldsByBytes s).map fun fields =>
          (ruleOf header.states silent s fields).map fun r => body header (rules ++ [r])

/-- What a reader that cuts lines by bytes comes to. -/
def Reading.runByBytes (silent : List (List Char)) (reading : Reading) :
    List (List UInt8) → Except Crash (Except ReadError Automaton)
  | [] => .ok reading.finish
  | line :: lines =>
    match reading.advanceByBytes silent line with
    | .error crash => .error crash
    | .ok (.error e) => .ok (.error e)
    | .ok (.ok next) => next.runByBytes silent lines

/-- Reads a file, cutting lines by bytes. -/
def readByBytes (silent : List (List Char)) (bytes : List UInt8) :
    Except Crash (Except ReadError Automaton) :=
  Reading.start.runByBytes silent (byteLines bytes)

/-- A line does the same to both readers. -/
theorem Reading.advanceByBytes_eq (reading : Reading) (line : List UInt8) :
    reading.advanceByBytes silent line = .ok (reading.advance silent line) := by
  have hrule : ∀ states s,
      ruleOf states silent s (fields? s) = readTransition states silent s := by
    intro states s
    unfold readTransition
    cases fields? s <;> rfl
  cases reading with
  | start => rfl
  | body header rules =>
      rw [advanceByBytes, advance, readRule]
      cases readLine line with
      | error e => rfl
      | ok s =>
          by_cases hblank : isBlankText s = true
          · simp only [if_pos hblank, Except.map, Option.toList_none, List.append_nil]
          · simp only [if_neg hblank, fieldsByBytes_eq, Except.map, hrule]
            cases readTransition header.states silent s <;> rfl

theorem Reading.runByBytes_eq (reading : Reading) (lines : List (List UInt8)) :
    reading.runByBytes silent lines =
      .ok (lines.foldlM (Reading.advance silent) reading >>= finish) := by
  induction lines generalizing reading with
  | nil => rfl
  | cons line lines ih =>
      rw [runByBytes, advanceByBytes_eq, List.foldlM_cons]
      cases reading.advance silent line with
      | error e => rfl
      | ok next => exact ih next

/-- A reader that cuts lines by bytes does not crash, and it reads what is there. -/
theorem readByBytes_eq (silent : List (List Char)) (bytes : List UInt8) :
    readByBytes silent bytes = .ok (read silent bytes) := by
  rw [readByBytes, Reading.runByBytes_eq, read_eq_foldlM]

/-- What becomes of a file. Reading it does not crash, and all the places where a line is
    cut are places in it. If the file is read, then it says what the automaton is. If it is
    not, then it has no header, or there is a first line with a fault, and the bytes behind
    the end of that line do not matter. -/
theorem read_describes_or_stops (silent : List (List Char)) (bytes : List UInt8) :
    readByBytes silent bytes = .ok (read silent bytes) ∧
      (∀ line, fieldsByBytes line = .ok (fields? line)) ∧
      (∀ line, ∀ c ∈ ['(', ',', ')'], ∀ n,
        firstByte? c line = some n ∨ lastByte? c line = some n →
          IsBoundary line n ∧ IsBoundary line (n + 1)) ∧
      (∀ a, read silent bytes = .ok a → Describes silent bytes a) ∧
      ∀ e, read silent bytes = .error e →
        (e = .invalidHeader .missing ∧ ∀ line ∈ byteLines bytes, isBlankLine line = true) ∨
          e ≠ .invalidHeader .missing ∧ ∃ before line back,
            FirstFault silent bytes e before line back ∧
              ∀ rest, back = 10 :: rest → ∀ other,
                read silent (before.flatMap (· ++ [10]) ++ (line ++ 10 :: other)) = .error e := by
  have hsize : ∀ c ∈ ['(', ',', ')'], c.utf8Size = 1 := by
    simp only [List.forall_mem_cons, List.not_mem_nil, false_implies, implies_true, and_true]
    decide
  refine ⟨readByBytes_eq silent bytes, fieldsByBytes_eq,
    fun line c hc n h => isBoundary_of_byte? (hsize c hc) h, fun a h => describes_of_read h, ?_⟩
  intro e h
  rcases missing_or_firstFault h with hmissing | ⟨hne, before, line, back, hfault⟩
  · exact .inl hmissing
  · refine .inr ⟨hne, before, line, back, hfault, ?_⟩
    rintro rest rfl other
    exact hfault.read_eq

/-- A file with a label that takes two bytes. -/
def accented : List UInt8 := encoded "\ndes (0, 1, 2)\r\n(0, \"é\", 1)".toList

/-- A file with a label that is two characters, in front of a line that is no transition. -/
def mislabelled : List UInt8 := encoded "des (0, 2, 2)\n(0, é, 1)\n(1, \"éé\", 0)\n)".toList

/-- One of the files is read, and the other one comes to the fault of its third line. The
    second comma of a line with an accent stands behind six bytes. -/
theorem read_describes_or_stops_accents :
    read [] accented = .ok ⟨⟨0⟩, 2, .ofRules [⟨⟨0⟩, .character 'é', ⟨1⟩⟩]⟩ ∧
      Describes [] accented ⟨⟨0⟩, 2, .ofRules [⟨⟨0⟩, .character 'é', ⟨1⟩⟩]⟩ ∧
      lastByte? ',' "(0, é, 1)".toList = some 6 ∧ IsBoundary "(0, é, 1)".toList 6 ∧
      read [] mislabelled = .error (.invalidLabel ['é', 'é']) ∧
      ∃ before line back,
        FirstFault [] mislabelled (.invalidLabel ['é', 'é']) before line back ∧
          ∀ rest, back = 10 :: rest → ∀ other,
            read [] (before.flatMap (· ++ [10]) ++ (line ++ 10 :: other)) =
              .error (.invalidLabel ['é', 'é']) := by
  have hread : read [] accented =
      .ok ⟨⟨0⟩, 2, .ofRules [⟨⟨0⟩, .character 'é', ⟨1⟩⟩]⟩ := by cbv
  have hfault : read [] mislabelled = .error (.invalidLabel ['é', 'é']) := by cbv
  have hcomma : lastByte? ',' "(0, é, 1)".toList = some 6 := by cbv
  rcases read_describes_or_stops [] accented with ⟨_, _, hplace, hdescribes, _⟩
  rcases read_describes_or_stops [] mislabelled with ⟨_, _, _, _, hstops⟩
  have hboundary := (hplace _ ',' (by decide) 6 (.inr hcomma)).1
  refine ⟨hread, hdescribes _ hread, hcomma, hboundary, hfault, ?_⟩
  rcases hstops _ hfault with ⟨hmissing, _⟩ | ⟨_, hfirst⟩
  · cases hmissing
  · exact hfirst

end Aldebaran

end WordAutomata
