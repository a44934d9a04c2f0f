import WordAutomata.Proofs.LineParts
import WordAutomata.Proofs.ReadFiles
import WordAutomata.Proofs.Records

/-!
# Layouts of Files

An automaton can be put down in a file in many ways. Numbers may have zeros in front,
labels may stand in quotes or not, white space may stand nearly anywhere, lines may
be blank, and each line may end in either of two ways, the last one also in none.
The reader makes nothing of all that. From each layout it gets what was put down.

What the reader sees of a line is not quite the line. It takes a return in front of a
feed for a part of the line end, even if it is the last bit of white space in the line.
Nothing is lost by that, because a line is no worse with less white space at its end
(`Laid.dropReturn`).

## Main definitions

* `Aldebaran.Numeral`, `Written`: Numbers and labels as they stand on a line.
* `Aldebaran.Means`: The symbol that a label stands for.
* `Aldebaran.HeaderLine`, `RuleLine`, `BlankLine`: The lines of a file.
* `Aldebaran.Ended`: A text with the given lines.
* `Aldebaran.Layout`: A text in which an automaton is put down.

## Theorems

* `Aldebaran.Ended.forall₂_lines`: The lines that are found in a text.
* `Aldebaran.RuleLine.readRule_eq`: The line of a rule gives the rule.
* `Aldebaran.Layout.read_eq`: Each layout is read as what it is a layout of.
* `Aldebaran.read_layout`: And that with no more than a warning.
-/

namespace WordAutomata

namespace Aldebaran

open Text

/-! ## Numbers and labels -/

/-- Decimal digits of a number, with or without zeros in front. -/
structure Numeral (n : Nat) (digits : List Char) : Prop where
  nonempty : digits ≠ []
  digit : ∀ c ∈ digits, isDigit c = true
  value : Nat.ofDigitChars 10 digits 0 = n

/-- A label stands on a line in quotes, or else as it is. In the second case it has no
    white space at its ends and no quotes of its own around it. -/
inductive Written (label : List Char) : List Char → Prop
  | quoted : Written label ('"' :: (label ++ ['"']))
  | bare (htrim : Trim label) (hquotes : ∀ inner, label ≠ '"' :: (inner ++ ['"'])) :
      Written label label

/-- The symbol that a label stands for. -/
inductive Means (silent : List (List Char)) : List Char → Symbol → Prop
  | tau : Means silent tau .epsilon
  | silent {label : List Char} (h : label ∈ silent) : Means silent label .epsilon
  | character {c : Char} (h : [c] ∉ silent) : Means silent [c] (.character c)

/-! ## Lines -/

/-- A line of white space. -/
def BlankLine (line : List Char) : Prop := '\n' ∉ line ∧ ∀ c ∈ line, isBlank c = true

/-- A line that announces the three numbers of a header. -/
def HeaderLine (header : Header) (line : List Char) : Prop :=
  '\n' ∉ line ∧ ∃ initial transitions states, Numeral header.initial initial ∧
    Numeral header.transitions transitions ∧ Numeral header.states states ∧
    Laid ['d', 'e', 's'] initial transitions states line

/-- A line with the source of a rule, a label that means its symbol, and its target. -/
def RuleLine (silent : List (List Char)) (r : Finite.Rule StateIndex) (line : List Char) : Prop :=
  '\n' ∉ line ∧ ∃ source label text target, Numeral r.source.value source ∧
    Means silent label r.symbol ∧ Written label text ∧ Numeral r.target.value target ∧
    Laid [] source text target line

/-- The lines of some rules in their order, and blank lines. -/
inductive RuleLines (silent : List (List Char)) :
    List (Finite.Rule StateIndex) → List (List Char) → Prop
  | nil : RuleLines silent [] []
  | blank {rules line ls} (hline : BlankLine line) (h : RuleLines silent rules ls) :
      RuleLines silent rules (line :: ls)
  | rule {r rules line ls} (hline : RuleLine silent r line) (h : RuleLines silent rules ls) :
      RuleLines silent (r :: rules) (line :: ls)

/-- The line of a header, the lines of rules after it, and blank lines. -/
inductive FileLines (silent : List (List Char)) (header : Header)
    (rules : List (Finite.Rule StateIndex)) : List (List Char) → Prop
  | blank {line ls} (hline : BlankLine line) (h : FileLines silent header rules ls) :
      FileLines silent header rules (line :: ls)
  | header {line ls} (hline : HeaderLine header line) (h : RuleLines silent rules ls) :
      FileLines silent header rules (line :: ls)

/-- A text with some lines. Each ends in a feed, or in a return and a feed, but the last
    one need not end at all. -/
inductive Ended : List (List Char) → List Char → Prop
  | nil : Ended [] []
  | last {line} (hne : line ≠ []) : Ended [line] line
  | feed {line ls text} (h : Ended ls text) : Ended (line :: ls) (line ++ '\n' :: text)
  | returnFeed {line ls text} (h : Ended ls text) :
      Ended (line :: ls) (line ++ '\r' :: '\n' :: text)

/-- A text in which an automaton is put down, given by its header and its rules. -/
def Layout (silent : List (List Char)) (header : Header) (rules : List (Finite.Rule StateIndex))
    (text : List Char) : Prop :=
  ∃ ls, FileLines silent header rules ls ∧ Ended ls text

variable {silent : List (List Char)} {n : Nat} {digits label line seen text : List Char}
  {symbol : Symbol} {header : Header} {states : Nat} {r : Finite.Rule StateIndex}
  {rules : List (Finite.Rule StateIndex)} {ls : List (List Char)}

/-! ## Parts of lines -/

theorem Numeral.readNumber_eq (h : Numeral n digits) (hfits : n < UInt64.size) :
    readNumber digits = .ok n := by
  rw [← h.value] at hfits
  rw [readNumber, readNatural_of_digits h.nonempty h.digit hfits, h.value]
  rfl

theorem Written.trim (h : Written label text) : Trim text := by
  cases h with
  | quoted => exact trim_of_quotes label
  | bare htrim _ => exact htrim

theorem Written.unquote_eq (h : Written label text) : unquote text = label := by
  cases h with
  | quoted => exact unquote_quoted label
  | bare _ hquotes => exact unquote_of_ne hquotes

theorem Means.readLabel_eq (h : Means silent label symbol) :
    readLabel silent label = .ok symbol := by
  cases h with
  | tau => exact if_pos rfl
  | silent h =>
      apply if_pos
      rw [Bool.or_eq_true]
      exact .inr (decide_eq_true h)
  | @character c h =>
      have hsilent : ¬ (decide ([c] = Aldebaran.tau) || decide ([c] ∈ silent)) = true := by
        simp [Aldebaran.tau, h]
      rw [readLabel, if_neg hsilent]

/-! ## Line ends -/

/-- A line as it is seen by the reader, who may have taken a return off its end. -/
def Seen (line seen : List Char) : Prop := seen = line ∨ seen = dropReturn '\r' line

/-- The lines that are found in a text. -/
theorem Ended.forall₂_lines (h : Ended ls text) (hfeed : ∀ line ∈ ls, '\n' ∉ line) :
    List.Forall₂ Seen ls (lines '\n' '\r' text) := by
  induction h with
  | nil => exact .nil
  | last hne =>
      rw [lines_of_not_mem (hfeed _ List.mem_cons_self) hne]
      exact .cons (.inl rfl) .nil
  | feed _ ih =>
      rw [List.forall_mem_cons] at hfeed
      rw [lines_append_cons hfeed.1]
      exact .cons (.inr rfl) (ih hfeed.2)
  | @returnFeed line ls text _ ih =>
      rw [List.forall_mem_cons] at hfeed
      -- The line with the return has a feed after it, and loses the return.
      have hline : '\n' ∉ line ++ ['\r'] := by simp [hfeed.1]
      have hsplit : line ++ '\r' :: '\n' :: text = (line ++ ['\r']) ++ '\n' :: text := by
        rw [List.append_assoc, List.singleton_append]
      rw [hsplit, lines_append_cons hline, dropReturn_concat]
      exact .cons (.inl rfl) (ih hfeed.2)

theorem Laid.dropReturn {keyword first second third : List Char}
    (h : Laid keyword first second third line) :
    Laid keyword first second third (dropReturn '\r' line) := by
  rcases h with ⟨front, a, b, c, back, hfront, ha, hb, hc, hback, rfl⟩
  have hsplit : ∀ back, front ++ '(' :: (a ++ ',' :: (b ++ ',' :: (c ++ ')' :: back))) =
      (front ++ '(' :: (a ++ ',' :: (b ++ ',' :: c))) ++ ')' :: back := by
    intro back
    simp only [List.append_assoc, List.cons_append]
  refine ⟨front, a, b, c, Text.dropReturn '\r' back, hfront, ha, hb, hc,
    fun d hd => hback d (dropReturn_subset _ _ hd), ?_⟩
  -- A return can only stand behind the closing parenthesis, among the white space.
  rw [hsplit, dropReturn_append_cons (by decide), ← hsplit]

theorem BlankLine.of_seen (h : BlankLine line) (hseen : Seen line seen) : BlankLine seen := by
  rcases hseen with rfl | rfl
  · exact h
  · exact ⟨fun hmem => h.1 (dropReturn_subset _ _ hmem),
      fun c hc => h.2 c (dropReturn_subset _ _ hc)⟩

theorem HeaderLine.of_seen (h : HeaderLine header line) (hseen : Seen line seen) :
    HeaderLine header seen := by
  rcases hseen with rfl | rfl
  · exact h
  · rcases h with ⟨hfeed, initial, transitions, states, hi, hm, hn, hlaid⟩
    exact ⟨fun hmem => hfeed (dropReturn_subset _ _ hmem), initial, transitions, states, hi, hm, hn,
      hlaid.dropReturn⟩

theorem RuleLine.of_seen (h : RuleLine silent r line) (hseen : Seen line seen) :
    RuleLine silent r seen := by
  rcases hseen with rfl | rfl
  · exact h
  · rcases h with ⟨hfeed, source, label, text, target, hs, hmeans, hwritten, ht, hlaid⟩
    exact ⟨fun hmem => hfeed (dropReturn_subset _ _ hmem), source, label, text, target, hs, hmeans,
      hwritten, ht, hlaid.dropReturn⟩

theorem RuleLines.of_seen {ls' : List (List Char)} (h : RuleLines silent rules ls)
    (hseen : List.Forall₂ Seen ls ls') : RuleLines silent rules ls' := by
  induction h generalizing ls' with
  | nil =>
      cases hseen
      exact .nil
  | blank hline _ ih =>
      cases hseen with
      | cons hfirst hrest => exact .blank (hline.of_seen hfirst) (ih hrest)
  | rule hline _ ih =>
      cases hseen with
      | cons hfirst hrest => exact .rule (hline.of_seen hfirst) (ih hrest)

theorem FileLines.of_seen {ls' : List (List Char)} (h : FileLines silent header rules ls)
    (hseen : List.Forall₂ Seen ls ls') : FileLines silent header rules ls' := by
  induction h generalizing ls' with
  | blank hline _ ih =>
      cases hseen with
      | cons hfirst hrest => exact .blank (hline.of_seen hfirst) (ih hrest)
  | header hline h =>
      cases hseen with
      | cons hfirst hrest => exact .header (hline.of_seen hfirst) (h.of_seen hrest)

theorem RuleLines.not_mem (h : RuleLines silent rules ls) : ∀ line ∈ ls, '\n' ∉ line := by
  induction h with
  | nil => exact fun _ hmem => absurd hmem List.not_mem_nil
  | blank hline _ ih => exact List.forall_mem_cons.2 ⟨hline.1, ih⟩
  | rule hline _ ih => exact List.forall_mem_cons.2 ⟨hline.1, ih⟩

theorem FileLines.not_mem (h : FileLines silent header rules ls) : ∀ line ∈ ls, '\n' ∉ line := by
  induction h with
  | blank hline _ ih => exact List.forall_mem_cons.2 ⟨hline.1, ih⟩
  | header hline h => exact List.forall_mem_cons.2 ⟨hline.1, h.not_mem⟩

/-! ## Reading -/

theorem readLine_encoded (s : List Char) : readLine (encoded s) = .ok s := by
  rw [readLine, decodeLine?_encoded]

theorem BlankLine.isBlankText (h : BlankLine line) : isBlankText line = true :=
  List.all_eq_true.2 h.2

/-- A line with parentheses is not blank. -/
theorem Laid.not_isBlankText {keyword first second third : List Char}
    (h : Laid keyword first second third line) : ¬ isBlankText line = true := by
  rcases h with ⟨front, a, b, c, back, _, _, _, _, _, rfl⟩
  intro hblank
  have hparenthesis := List.all_eq_true.1 hblank '(' (List.mem_append_right _ List.mem_cons_self)
  cases hparenthesis

/-- Blank lines in front of a header are passed over. -/
theorem BlankLine.readHead_eq (h : BlankLine line) (rest : List (List UInt8)) :
    readHead (encoded line :: rest) = readHead rest := by
  have hsplit : splitHeader (encoded line :: rest) = splitHeader rest := by
    rw [splitHeader, readLine_encoded]
    exact if_pos h.isBlankText
  rw [readHead, hsplit, readHead]

/-- The line of a header gives the header. -/
theorem HeaderLine.readHead_eq (h : HeaderLine header line)
    (hinitial : header.initial < header.states) (hstates : header.states < UInt64.size)
    (htransitions : header.transitions < UInt64.size) (rest : List (List UInt8)) :
    readHead (encoded line :: rest) = .ok (header, rest) := by
  rcases h with ⟨_, initial, transitions, states, hi, hm, hn, hlaid⟩
  have hsplit : splitHeader (encoded line :: rest) = .ok (line, rest) := by
    rw [splitHeader, readLine_encoded]
    exact if_neg hlaid.not_isBlankText
  have hfind := findHeader?_laid hlaid hi.digit hi.nonempty hm.digit hm.nonempty hn.digit
    hn.nonempty
  have hread : readHeader line = .ok header := by
    rw [readHeader, hfind]
    simp only [hi.readNumber_eq (Nat.lt_trans hinitial hstates), hm.readNumber_eq htransitions,
      hn.readNumber_eq hstates]
    show (if header.initial < header.states then _ else _) = _
    rw [if_pos hinitial]
    rfl
  rw [readHead, hsplit]
  show (readHeader line).bind _ = _
  rw [hread]
  rfl

/-- The line of a rule gives the rule. -/
theorem RuleLine.readRule_eq (h : RuleLine silent r line) (hsource : r.source.value < states)
    (htarget : r.target.value < states) (hstates : states ≤ UInt64.size) :
    readRule states silent (encoded line) = .ok (some r) := by
  rcases h with ⟨_, source, label, text, target, hs, hmeans, hwritten, ht, hlaid⟩
  have hends : (decide (r.source.value < states) && decide (r.target.value < states)) = true := by
    rw [Bool.and_eq_true, decide_eq_true_eq, decide_eq_true_eq]
    exact ⟨hsource, htarget⟩
  have htransition : readTransition states silent line = .ok r := by
    rw [readTransition, fields?_laid hlaid hs.digit hwritten.trim ht.digit, hwritten.unquote_eq]
    simp only [hs.readNumber_eq (Nat.lt_of_lt_of_le hsource hstates),
      ht.readNumber_eq (Nat.lt_of_lt_of_le htarget hstates), hmeans.readLabel_eq]
    show (if (decide (r.source.value < states) && decide (r.target.value < states)) = true then
      _ else _) = _
    rw [if_pos hends]
    rfl
  rw [readRule, readLine_encoded]
  simp only [if_neg hlaid.not_isBlankText, htransition]
  rfl

/-- The lines of rules give the rules, in order, before any other line is reached. -/
theorem RuleLines.readRules_append (h : RuleLines silent rules ls) (hstates : states ≤ UInt64.size)
    (hends : ∀ r ∈ rules, r.source.value < states ∧ r.target.value < states)
    (before : List (Finite.Rule StateIndex)) (rest : List (List UInt8)) :
    readRules states silent before (ls.map encoded ++ rest) =
      readRules states silent (rules.reverse ++ before) rest := by
  induction h generalizing before with
  | nil => rfl
  | blank hline _ ih =>
      rw [List.map_cons, List.cons_append, readRules, readRule, readLine_encoded]
      simp only [if_pos hline.isBlankText]
      exact ih hends before
  | @rule r rules line ls hline _ ih =>
      rw [List.forall_mem_cons] at hends
      rw [List.map_cons, List.cons_append, readRules,
        hline.readRule_eq hends.1.1 hends.1.2 hstates]
      show readRules states silent (r :: before) _ = _
      rw [ih hends.2, List.reverse_cons, List.append_assoc, List.singleton_append]

/-- The header is found, and lines of rules follow it. -/
theorem FileLines.readHead_eq (h : FileLines silent header rules ls)
    (hinitial : header.initial < header.states) (hstates : header.states < UInt64.size)
    (htransitions : header.transitions < UInt64.size) :
    ∃ rest, readHead (ls.map encoded) = .ok (header, rest.map encoded) ∧
      RuleLines silent rules rest := by
  induction h with
  | blank hline _ ih =>
      rw [List.map_cons, hline.readHead_eq]
      exact ih
  | header hline h =>
      rw [List.map_cons, hline.readHead_eq hinitial hstates htransitions]
      exact ⟨_, rfl, h⟩

/-- A layout has a header to be read, and rules after it. -/
theorem Layout.readHead_eq (h : Layout silent header rules text)
    (hinitial : header.initial < header.states) (hstates : header.states < UInt64.size)
    (htransitions : header.transitions < UInt64.size)
    (hends : ∀ r ∈ rules, r.source.value < header.states ∧ r.target.value < header.states) :
    ∃ rest, readHead (byteLines (encoded text)) = .ok (header, rest) ∧
      readRules header.states silent [] rest = (rules, none) := by
  rcases h with ⟨ls, hfile, hended⟩
  have hseen := hfile.of_seen (hended.forall₂_lines hfile.not_mem)
  rcases hseen.readHead_eq hinitial hstates htransitions with ⟨rest, hhead, hrest⟩
  have hrules := hrest.readRules_append (Nat.le_of_lt hstates) hends [] []
  rw [List.append_nil, List.append_nil, readRules, List.reverse_reverse] at hrules
  rw [byteLines_encoded]
  exact ⟨rest.map encoded, hhead, hrules⟩

/-- Each layout is read as what it is a layout of. -/
theorem Layout.read_eq (h : Layout silent header rules text)
    (hinitial : header.initial < header.states) (hstates : header.states < UInt64.size)
    (htransitions : header.transitions < UInt64.size)
    (hends : ∀ r ∈ rules, r.source.value < header.states ∧ r.target.value < header.states) :
    read silent (encoded text) = .ok ⟨⟨header.initial⟩, header.states, .ofRules rules⟩ := by
  rcases h.readHead_eq hinitial hstates htransitions hends with ⟨rest, hhead, hrules⟩
  exact read_of_readRules hhead hrules

/-- Of what is not mere information there is at most one record. It is a warning if the
    header announces another number of rules than there are. -/
theorem recordsOf_readNoting {bytes : List UInt8} {rest : List (List UInt8)} {log : Log}
    {level : Level} (hhead : readHead (byteLines bytes) = .ok (header, rest))
    (hrules : readRules header.states silent [] rest = (rules, none)) (hinfo : .info ≠ level)
    (htrace : .trace ≠ level) :
    (readNoting silent bytes log).2.recordsOf level = log.recordsOf level ++
      if level = .warn ∧ log.keeps .warn = true ∧ rules.length ≠ header.transitions then
        [⟨.warn, countText header.transitions rules.length⟩] else [] := by
  unfold readNoting
  simp only [hhead, hrules]
  rw [Log.recordsOf_note_of_ne hinfo]
  by_cases hcount : rules.length = header.transitions
  · have hsilent : ¬ (level = .warn ∧ log.keeps .warn = true ∧
        rules.length ≠ header.transitions) := fun h => h.2.2 hcount
    rw [if_pos hcount, if_neg hsilent, Log.recordsOf_noteEach_of_ne htrace,
      Log.recordsOf_note_of_ne hinfo, List.append_nil]
  · rw [if_neg hcount, Log.recordsOf_note_eq, Log.recordsOf_noteEach_of_ne htrace,
      Log.recordsOf_note_of_ne hinfo, Log.keeps_noteEach, Log.keeps_note]
    simp only [ne_eq, hcount, not_false_eq_true, and_true]

/-- A text in which an automaton is put down, in any layout, is read as this automaton. The
    number of rules that the header announces does not matter for that. If it is wrong
    there is a warning, and nothing else is recorded but mere information. -/
theorem read_layout (silent : List (List Char)) (header : Header)
    (rules : List (Finite.Rule StateIndex)) (hinitial : header.initial < header.states)
    (hstates : header.states < UInt64.size) (htransitions : header.transitions < UInt64.size)
    (hends : ∀ r ∈ rules, r.source.value < header.states ∧ r.target.value < header.states)
    (text : String) (h : Layout silent header rules text.toList) :
    read silent text.toUTF8.toList = .ok ⟨⟨header.initial⟩, header.states, .ofRules rules⟩ ∧
    ∀ log, (readNoting silent text.toUTF8.toList log).1 =
        .ok ⟨⟨header.initial⟩, header.states, .ofRules rules⟩ ∧
      ∀ level, level ≠ .info → level ≠ .trace →
        (readNoting silent text.toUTF8.toList log).2.recordsOf level = log.recordsOf level ++
          if level = .warn ∧ log.keeps .warn = true ∧ rules.length ≠ header.transitions then
            [⟨.warn, countText header.transitions rules.length⟩] else [] := by
  rcases h.readHead_eq hinitial hstates htransitions hends with ⟨rest, hhead, hrules⟩
  rw [toList_toUTF8]
  have hread := read_of_readRules hhead hrules
  refine ⟨hread, fun log => ⟨?_, fun level hinfo htrace => ?_⟩⟩
  · rw [readNoting_fst]
    exact hread
  · exact recordsOf_readNoting hhead hrules (Ne.symm hinfo) (Ne.symm htrace)

/-- A file with blank lines, white space and zeros in odd places, with three ways to end a
    line, and with labels that hold what stands between fields. -/
def oddFile : String :=
  " \t\r\n  des( 00 ,7 , 3)\r\n(0,i,(\" , 01)\r\r\n\n( 1 ,\"\"\",2 ) \n (2, ,, 0)\u00a0"

/-- The rules in this file. -/
def oddRules : List (Finite.Rule StateIndex) :=
  [⟨⟨0⟩, .epsilon, ⟨1⟩⟩, ⟨⟨1⟩, .character '"', ⟨2⟩⟩, ⟨⟨2⟩, .character ',', ⟨0⟩⟩]

/-- One of its labels is silent. -/
def oddSilent : List (List Char) := [['i', ',', '(', '"']]

/-- The file is a layout of these rules. -/
theorem layout_oddFile : Layout oddSilent ⟨0, 7, 3⟩ oddRules oddFile.toList := by
  have hnumeral : ∀ {n digits}, digits ≠ [] → digits.all isDigit = true →
      Nat.ofDigitChars 10 digits 0 = n → Numeral n digits :=
    fun hne hdigits hvalue => ⟨hne, List.all_eq_true.1 hdigits, hvalue⟩
  have hblank : BlankLine [' ', '\t'] := ⟨by decide, List.all_eq_true.1 rfl⟩
  have hempty : BlankLine [] := ⟨by decide, isBlank_of_mem_nil⟩
  have hheader : HeaderLine ⟨0, 7, 3⟩ "  des( 00 ,7 , 3)".toList :=
    ⟨by decide, ['0', '0'], ['7'], ['3'], hnumeral (by decide) rfl rfl,
      hnumeral (by decide) rfl rfl, hnumeral (by decide) rfl rfl, _, _, _, _, [],
      padded_of_all [' ', ' '] [] rfl rfl, padded_of_all [' '] [' '] rfl rfl,
      padded_of_all [] [' '] rfl rfl, padded_space _, isBlank_of_mem_nil, by decide⟩
  -- The label ends in a quote but does not begin with one, and it is silent as a whole.
  have hsilent : RuleLine oddSilent ⟨⟨0⟩, .epsilon, ⟨1⟩⟩ "(0,i,(\" , 01)\r".toList :=
    ⟨by decide, ['0'], ['i', ',', '(', '"'], _, ['0', '1'], hnumeral (by decide) rfl rfl,
      .silent (by decide), .bare (trim_of_ends rfl rfl rfl rfl) (fun inner h => by cases h),
      hnumeral (by decide) rfl rfl, _, _, _, _, ['\r'], padded_self _, padded_self _,
      padded_of_all [] [' '] rfl rfl, padded_space _, List.all_eq_true.1 rfl, by decide⟩
  have hquote : RuleLine oddSilent ⟨⟨1⟩, .character '"', ⟨2⟩⟩ "( 1 ,\"\"\",2 ) ".toList :=
    ⟨by decide, ['1'], ['"'], _, ['2'], hnumeral (by decide) rfl rfl, .character (by decide),
      .quoted, hnumeral (by decide) rfl rfl, _, _, _, _, [' '], padded_self _,
      padded_of_all [' '] [' '] rfl rfl, padded_self _, padded_of_all [] [' '] rfl rfl,
      isBlank_of_mem_space, by decide⟩
  have hcomma : RuleLine oddSilent ⟨⟨2⟩, .character ',', ⟨0⟩⟩ " (2, ,, 0)\u00a0".toList :=
    ⟨by decide, ['2'], [','], _, ['0'], hnumeral (by decide) rfl rfl, .character (by decide),
      .bare (trim_of_ends rfl rfl rfl rfl) (fun inner h => by cases h),
      hnumeral (by decide) rfl rfl, _, _, _, _, ['\u00a0'], padded_space _, padded_self _,
      padded_space _, padded_space _, List.all_eq_true.1 rfl, by decide⟩
  have htext : oddFile.toList = [' ', '\t'] ++ '\r' :: '\n' :: ("  des( 00 ,7 , 3)".toList ++
      '\r' :: '\n' :: ("(0,i,(\" , 01)\r".toList ++ '\r' :: '\n' :: ([] ++
        '\n' :: ("( 1 ,\"\"\",2 ) ".toList ++ '\n' :: " (2, ,, 0)\u00a0".toList)))) := by decide
  rw [htext]
  refine ⟨_, ?_, .returnFeed (.returnFeed (.returnFeed (.feed (.feed (.last (by decide))))))⟩
  exact .blank hblank (.header hheader (.rule hsilent (.blank hempty
    (.rule hquote (.rule hcomma .nil)))))

/-- It is read with a warning, since it announces too many rules. -/
theorem read_layout_oddFile :
    Layout oddSilent ⟨0, 7, 3⟩ oddRules oddFile.toList ∧
    read oddSilent oddFile.toUTF8.toList = .ok ⟨⟨0⟩, 3, .ofRules oddRules⟩ ∧
    (readNoting oddSilent oddFile.toUTF8.toList (.empty (some .warn))).2.recordsOf .warn =
      [⟨.warn, "The header announces 7 transitions, but 3 were read"⟩] := by
  have hends : ∀ r ∈ oddRules, r.source.value < 3 ∧ r.target.value < 3 := by decide
  rcases read_layout oddSilent ⟨0, 7, 3⟩ oddRules (by decide) (by decide) (by decide) hends oddFile
    layout_oddFile with ⟨hread, hnoting⟩
  refine ⟨layout_oddFile, hread, ?_⟩
  rw [(hnoting (.empty (some .warn))).2 .warn (by decide) (by decide)]
  decide

end Aldebaran

end WordAutomata
