import WordAutomata.Aldebaran.Read
import WordAutomata.Proofs.EncodedLines

/-!
# What a File That Was Read Holds

Reading refuses all that it cannot make sense of, so what it returns is known to
be in order. Each rule comes from a line of its own. Its ends are below the number
of states, and its symbol is what the label stands for.

A label is a part of a line, and a line has no line feed in it. So no rule carries
one.

## Main definitions

* `Aldebaran.Plain`: A symbol that can stand on a line and is read as itself.

## Theorems

* `Text.decodeLine?_eq_some_iff`: Decoding undoes encoding and nothing else.
* `Text.not_mem_of_mem_lines`: No line holds a feed.
* `Aldebaran.readTransition_ok`: What is known of a rule that was read.
* `Aldebaran.fault_readRules_eq_none_iff`, `mem_readRules_of_mem`: Lines without a
  fault are all read.
* `Aldebaran.read_ok`: What is known of an automaton that was read.
* `Aldebaran.plain_of_read`: Its symbols are plain.
-/

universe u v

namespace WordAutomata

namespace Text

/-- What is decoded is what was encoded. -/
theorem decodeLine?_eq_some_iff {line : List UInt8} {s : List Char} :
    decodeLine? line = some s ↔ line = encoded s := by
  constructor
  · intro h
    rcases Option.map_eq_some_iff.1 h with ⟨chars, hchars, rfl⟩
    have hsome : (ByteArray.mk line.toArray).utf8Decode?.isSome = true := by
      rw [hchars]
      rfl
    -- No two encodings stand for the same text, so encoding leads back.
    have hencode := ByteArray.utf8Encode_get_utf8Decode? (h := hsome)
    have hget : (ByteArray.mk line.toArray).utf8Decode?.get hsome = chars := by
      simp only [hchars, Option.get_some]
    rw [hget] at hencode
    have hbytes := congrArg (fun bytes => bytes.data.toList) hencode
    rw [List.utf8Encode, List.data_toByteArray] at hbytes
    exact hbytes.symm
  · rintro rfl
    exact decodeLine?_encoded s

/-! ## Lines -/

section Lines

variable {α : Type u} [DecidableEq α]

theorem not_mem_of_mem_cut {separator : α} {l part : List α} (h : part ∈ cut separator l) :
    separator ∉ part := by
  induction l generalizing part with
  | nil =>
      rw [cut, List.foldr_nil, List.mem_singleton] at h
      rw [h]
      exact List.not_mem_nil
  | cons a l ih =>
      by_cases ha : a = separator
      · subst ha
        rw [cut_cons_separator, List.mem_cons] at h
        rcases h with rfl | h
        · exact List.not_mem_nil
        · exact ih h
      · rw [cut_cons_of_ne ha] at h
        cases hl : cut separator l with
        | nil => exact absurd hl (cut_ne_nil separator l)
        | cons first parts =>
            rw [hl] at h ih
            rcases List.mem_cons.1 h with rfl | h
            · rw [List.mem_cons, not_or]
              exact ⟨Ne.symm ha, ih List.mem_cons_self⟩
            · exact ih (List.mem_cons_of_mem first h)

/-- No line holds a feed. -/
theorem not_mem_of_mem_lines {feed ret : α} {l line : List α} (h : line ∈ lines feed ret l) :
    feed ∉ line := by
  rcases List.eq_nil_or_concat (cut feed l) with hnil | ⟨parts, rest, hparts⟩
  · exact absurd hnil (cut_ne_nil feed l)
  · rw [List.concat_eq_append] at hparts
    -- Each line is a part, or what is left of one without its carriage return.
    have hcut : ∀ part ∈ parts ++ [rest], feed ∉ part := fun part hpart =>
      not_mem_of_mem_cut (hparts ▸ hpart)
    rw [lines_of_cut hparts, List.mem_append] at h
    rcases h with h | h
    · rcases List.mem_map.1 h with ⟨part, hpart, rfl⟩
      exact fun hmem => hcut part (List.mem_append_left _ hpart) (dropReturn_subset ret part hmem)
    · by_cases hrest : rest = []
      · rw [if_pos hrest] at h
        exact absurd h List.not_mem_nil
      · rw [if_neg hrest, List.mem_singleton] at h
        subst h
        exact hcut line (List.mem_append_right _ (List.mem_singleton_self line))

end Lines

theorem trim_subset (s : List Char) : trim s ⊆ s := by
  have hleft : trimLeft s ⊆ s := List.dropWhile_subset isBlank
  have hright : ∀ t, trimRight t ⊆ t := by
    intro t c hc
    exact List.mem_reverse.1 (List.dropWhile_subset isBlank (List.mem_reverse.1 hc))
  exact List.Subset.trans (hright _) hleft

end Text

namespace Aldebaran

open Text

/-- One step after the other succeeds if both do. -/
theorem bind_eq_ok {ε : Type u} {α β : Type v} {x : Except ε α} {f : α → Except ε β} {b : β} :
    (x >>= f) = .ok b ↔ ∃ a, x = .ok a ∧ f a = .ok b := by
  cases x with
  | error e =>
      constructor
      · intro h
        cases h
      · rintro ⟨a, h, _⟩
        cases h
  | ok a =>
      constructor
      · exact fun h => ⟨a, rfl, h⟩
      · rintro ⟨_, h, hf⟩
        cases h
        exact hf

/-! ## Rules -/

/-- A symbol can stand on a line, and the reader does not take it for epsilon
    unless it is. -/
def Plain (silent : List (List Char)) (symbol : Symbol) : Prop :=
  ∀ c, symbol = .character c → c ≠ '\n' ∧ [c] ∉ silent

variable {silent : List (List Char)} {states : Nat} {r : Finite.Rule StateIndex}

/-- The label of a line is a part of it. -/
theorem label_subset {line source label target : List Char}
    (h : fields? line = some (source, label, target)) : label ⊆ line := by
  have hunquote : ∀ s, unquote s ⊆ s := by
    intro s
    unfold unquote
    split
    · exact List.Subset.trans (List.dropLast_subset _) fun _ => List.mem_of_mem_tail
    · exact List.Subset.refl s
  have hbetween : ∀ {first last part}, between? line first last = some part → part ⊆ line := by
    intro first last part hpart
    unfold between? at hpart
    split at hpart
    · cases hpart
      exact List.Subset.trans (List.drop_subset _ _) (List.take_subset _ _)
    · cases hpart
  simp only [fields?, Option.bind_eq_bind, Option.bind_eq_some_iff, Option.pure_def,
    Option.some.injEq, Prod.mk.injEq] at h
  rcases h with ⟨_, _, _, _, _, _, _, _, _, _, part, hpart, _, _, _, rfl, _⟩
  exact List.Subset.trans (hunquote _) (List.Subset.trans (trim_subset part) (hbetween hpart))

/-- What is known of a rule that was read. -/
theorem readTransition_ok {line : List Char} (h : readTransition states silent line = .ok r) :
    ∃ source label target, fields? line = some (source, label, target) ∧
      readNumber source = .ok r.source.value ∧ readNumber target = .ok r.target.value ∧
      r.source.value < states ∧ r.target.value < states ∧
      readLabel silent label = .ok r.symbol := by
  unfold readTransition at h
  cases hfields : fields? line with
  | none =>
      rw [hfields] at h
      cases h
  | some fields =>
      rcases fields with ⟨source, label, target⟩
      rw [hfields] at h
      simp only [bind_eq_ok] at h
      rcases h with ⟨i, hi, j, hj, h⟩
      split at h
      · rename_i hlt
        rw [Bool.and_eq_true, decide_eq_true_eq, decide_eq_true_eq] at hlt
        rcases bind_eq_ok.1 h with ⟨symbol, hsymbol, hr⟩
        cases hr
        exact ⟨source, label, target, rfl, hi, hj, hlt.1, hlt.2, hsymbol⟩
      · cases h

/-- A label that stands for a character is that character. -/
theorem readLabel_character {label : List Char} {c : Char}
    (h : readLabel silent label = .ok (.character c)) : label = [c] ∧ [c] ∉ silent := by
  unfold readLabel at h
  split at h
  · cases h
  · rename_i hsilent
    split at h
    · cases h
      refine ⟨rfl, fun hmem => hsilent ?_⟩
      rw [Bool.or_eq_true, decide_eq_true_eq, decide_eq_true_eq]
      exact .inr hmem
    · cases h

/-- A rule on a line without a line feed does not carry one. -/
theorem plain_of_readTransition {line : List Char} (h : readTransition states silent line = .ok r)
    (hline : '\n' ∉ line) : Plain silent r.symbol := by
  intro c hc
  rcases readTransition_ok h with ⟨_, label, _, hfields, _, _, _, _, hlabel⟩
  rw [hc] at hlabel
  rcases readLabel_character hlabel with ⟨rfl, hsilent⟩
  refine ⟨?_, hsilent⟩
  -- The label would be the line feed alone, and a label is a part of its line.
  rintro rfl
  exact hline (label_subset hfields List.mem_cons_self)

/-- Each rule that was read comes from a line. -/
theorem mem_readRules {before : List (Finite.Rule StateIndex)} {lines : List (List UInt8)}
    (h : r ∈ (readRules states silent before lines).1) :
    r ∈ before ∨ ∃ line ∈ lines, readRule states silent line = .ok (some r) := by
  induction lines generalizing before with
  | nil => exact .inl (List.mem_reverse.1 h)
  | cons line lines ih =>
      rw [readRules] at h
      have hrest : ∀ {before}, r ∈ (readRules states silent before lines).1 →
          r ∈ before ∨ ∃ line' ∈ line :: lines, readRule states silent line' = .ok (some r) := by
        intro before h
        rcases ih h with h | ⟨line', hline', h⟩
        · exact .inl h
        · exact .inr ⟨line', List.mem_cons_of_mem line hline', h⟩
      cases hread : readRule states silent line with
      | error e =>
          rw [hread] at h
          exact .inl (List.mem_reverse.1 h)
      | ok found =>
          cases found with
          | none =>
              rw [hread] at h
              exact hrest h
          | some s =>
              rw [hread] at h
              rcases hrest h with h | h
              · rcases List.mem_cons.1 h with rfl | h
                · exact .inr ⟨line, List.mem_cons_self, hread⟩
                · exact .inl h
              · exact .inr h

/-- Reading comes to the last line if no line has a fault. -/
theorem fault_readRules_eq_none_iff {before : List (Finite.Rule StateIndex)}
    {lines : List (List UInt8)} : (readRules states silent before lines).2 = none ↔
      ∀ line ∈ lines, ∃ found, readRule states silent line = .ok found := by
  induction lines generalizing before with
  | nil => exact ⟨fun _ _ h => absurd h List.not_mem_nil, fun _ => rfl⟩
  | cons line lines ih =>
      rw [List.forall_mem_cons, readRules]
      cases hread : readRule states silent line with
      | error e => simp only [reduceCtorEq, exists_false, false_and]
      | ok found =>
          rw [and_iff_right ⟨found, rfl⟩]
          cases found with
          | none => exact ih
          | some s => exact ih

/-- If reading comes to the last line, then the rule on each line is read. -/
theorem mem_readRules_of_mem {before : List (Finite.Rule StateIndex)} {lines : List (List UInt8)}
    (h : (readRules states silent before lines).2 = none)
    (hr : r ∈ before ∨ ∃ line ∈ lines, readRule states silent line = .ok (some r)) :
    r ∈ (readRules states silent before lines).1 := by
  induction lines generalizing before with
  | nil =>
      rcases hr with hr | ⟨line, hline, _⟩
      · exact List.mem_reverse.2 hr
      · exact absurd hline List.not_mem_nil
  | cons line lines ih =>
      rw [readRules] at h ⊢
      cases hread : readRule states silent line with
      | error e =>
          rw [hread] at h
          cases h
      | ok found =>
          rw [hread] at h
          -- The rule was read before, is on this line, or is on a later one.
          have hplace : r ∈ before ∨ found = some r ∨
              ∃ line ∈ lines, readRule states silent line = .ok (some r) := by
            rcases hr with hr | ⟨line', hline', hr⟩
            · exact .inl hr
            · rcases List.mem_cons.1 hline' with rfl | hline'
              · exact .inr (.inl (Except.ok.inj (hread.symm.trans hr)))
              · exact .inr (.inr ⟨line', hline', hr⟩)
          cases found with
          | none =>
              apply ih h
              rcases hplace with hr | hr | hr
              · exact .inl hr
              · cases hr
              · exact .inr hr
          | some s =>
              apply ih h
              rcases hplace with hr | hr | hr
              · exact .inl (List.mem_cons_of_mem s hr)
              · cases hr
                exact .inl List.mem_cons_self
              · exact .inr hr

/-- A rule on a line is what is read of the decoded line. -/
theorem readRule_some {line : List UInt8} (h : readRule states silent line = .ok (some r)) :
    ∃ s, line = encoded s ∧ readTransition states silent s = .ok r := by
  unfold readRule readLine at h
  cases hline : decodeLine? line with
  | none =>
      rw [hline] at h
      cases h
  | some s =>
      rw [hline] at h
      refine ⟨s, decodeLine?_eq_some_iff.1 hline, ?_⟩
      by_cases hblank : isBlankText s = true
      · simp only [if_pos hblank] at h
        cases h
      · simp only [if_neg hblank] at h
        cases htransition : readTransition states silent s with
        | error e =>
            rw [htransition] at h
            cases h
        | ok r' =>
            rw [htransition] at h
            cases h
            rfl

/-! ## Files -/

/-- The lines after a header are lines of the file. -/
theorem splitHeader_subset {lines rest : List (List UInt8)} {header : List Char}
    (h : splitHeader lines = .ok (header, rest)) : rest ⊆ lines := by
  induction lines with
  | nil => cases h
  | cons line lines ih =>
      unfold splitHeader at h
      cases hline : readLine line with
      | error e =>
          rw [hline] at h
          cases h
      | ok s =>
          rw [hline] at h
          by_cases hblank : isBlankText s = true
          · simp only [if_pos hblank] at h
            exact List.Subset.trans (ih h) (List.subset_cons_self line lines)
          · simp only [if_neg hblank] at h
            cases h
            exact List.subset_cons_self line _

/-- What is known of an automaton that was read. -/
theorem read_ok {bytes : List UInt8} {a : Automaton} (h : read silent bytes = .ok a) :
    ∃ header lines, readHead (byteLines bytes) = .ok (header, lines) ∧
      a.initial = ⟨header.initial⟩ ∧ a.states = header.states ∧
      readRules header.states silent [] lines = (a.rulebook.rules, none) := by
  unfold read readNoting at h
  cases hhead : readHead (byteLines bytes) with
  | error e =>
      rw [hhead] at h
      cases h
  | ok head =>
      rcases head with ⟨header, lines⟩
      rw [hhead] at h
      cases hrules : readRules header.states silent [] lines with
      | mk rules fault =>
          simp only [hrules] at h
          cases fault with
          | some e => cases h
          | none =>
              cases h
              exact ⟨header, lines, rfl, rfl, rfl, hrules⟩

/-- What is read does not depend on the log that is kept. -/
theorem readNoting_fst {bytes : List UInt8} {log : Log} :
    (readNoting silent bytes log).1 = read silent bytes := by
  unfold read readNoting
  cases readHead (Text.byteLines bytes) with
  | error e => rfl
  | ok head =>
      rcases head with ⟨header, lines⟩
      cases hrules : readRules header.states silent [] lines with
      | mk rules fault =>
          cases fault with
          | some e => simp only [hrules]
          | none => simp only [hrules]

/-- A file is read if its header is and its rules are. -/
theorem read_of_readRules {bytes : List UInt8} {header : Header} {lines : List (List UInt8)}
    {rules : List (Finite.Rule StateIndex)}
    (hhead : readHead (byteLines bytes) = .ok (header, lines))
    (hrules : readRules header.states silent [] lines = (rules, none)) :
    read silent bytes = .ok ⟨⟨header.initial⟩, header.states, .ofRules rules⟩ := by
  unfold read readNoting
  simp only [hhead, hrules]

/-- The first fault on the lines after the header is the fault of the file. -/
theorem read_of_fault {bytes : List UInt8} {header : Header} {lines : List (List UInt8)}
    {rules : List (Finite.Rule StateIndex)} {e : ReadError}
    (hhead : readHead (byteLines bytes) = .ok (header, lines))
    (hrules : readRules header.states silent [] lines = (rules, some e)) :
    read silent bytes = .error e := by
  unfold read readNoting
  simp only [hhead, hrules]

/-- No rule that was read carries a line feed, or a label that is silent. -/
theorem plain_of_read {bytes : List UInt8} {a : Automaton} (h : read silent bytes = .ok a) :
    ∀ r ∈ a.rulebook.rules, Plain silent r.symbol := by
  intro r hr
  rcases read_ok h with ⟨header, lines, hhead, _, _, hrules⟩
  have hmem : r ∈ (readRules header.states silent [] lines).1 := by
    rw [hrules]
    exact hr
  rcases (mem_readRules hmem).resolve_left List.not_mem_nil with ⟨line, hline, hread⟩
  rcases readRule_some hread with ⟨s, rfl, htransition⟩
  apply plain_of_readTransition htransition
  intro hfeed
  -- The byte of a line feed would be in the line.
  have hbyte : (10 : UInt8) ∈ encoded s := List.mem_flatMap.2 ⟨'\n', hfeed, List.mem_cons_self⟩
  have hsubset : lines ⊆ byteLines bytes := by
    rcases bind_eq_ok.1 hhead with ⟨⟨first, rest⟩, hsplit, hheader⟩
    rcases bind_eq_ok.1 hheader with ⟨_, _, hpair⟩
    cases hpair
    exact splitHeader_subset hsplit
  exact not_mem_of_mem_lines (hsubset hline) hbyte

end Aldebaran

end WordAutomata
