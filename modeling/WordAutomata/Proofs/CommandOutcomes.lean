import WordAutomata.Proofs.Activities
import WordAutomata.Proofs.ReadFiles
import WordAutomata.Tool.Command

/-!
# What Commands Come To

A command does little by itself. It reads an automaton from a file, makes another one
of it, and says what came of that. Around this there are logs, timers and reports,
none of which can change the outcome. With them taken away a command is a function
of the file system: whether there is an automaton to be read, and what is done
with it.

A file with the wrong extension is refused before the file system is asked. Otherwise
the first error counts, and it ends the command before anything is written.

## Main definitions

* `Tool.FileSystem.automaton`: The automaton in the file with a path, or the error.
* `Tool.delivered`: What there is after a text was written.
* `Tool.determinizedText`: The text of the deterministic automaton of a file.
* `Tool.Outcome.Shows`: What a session ends with.

## Theorems

* `Tool.FileSystem.automaton_eq_ok_iff`: When there is an automaton to be read.
* `Tool.ensures_readAutomaton`: Reading a file of the file system.
* `Tool.ensures_determinize`: Determinizing one.
* `Tool.run_shows`: The tool shows what its command comes to.
-/

namespace WordAutomata

namespace Tool

open Activity

/-- The automaton in the file with a path, or why there is none. -/
def FileSystem.automaton (s : FileSystem) (path : String) (silent : List String) :
    Except String Aldebaran.Automaton :=
  if Path.extension? path = some extension then
    match s.find path with
    | .error e => .error e.report
    | .ok bytes =>
      (Aldebaran.read (silent.map String.toList) bytes).mapError Aldebaran.ReadError.report
  else .error (Text.quoted "Unsupported file format, expected an .aut file.")

theorem mapError_eq_ok_iff {ε ε' α : Type} {f : ε → ε'} {x : Except ε α} {a : α} :
    x.mapError f = .ok a ↔ x = .ok a := by
  cases x with
  | error e =>
      constructor
      · intro h
        exact nomatch h
      · intro h
        exact nomatch h
  | ok a' =>
      show Except.ok a' = Except.ok a ↔ _
      rw [Except.ok.injEq, Except.ok.injEq]

/-- There is an automaton if the extension is right, the file system has the file, and the
    file can be read. -/
theorem FileSystem.automaton_eq_ok_iff {s : FileSystem} {path : String} {silent : List String}
    {a : Aldebaran.Automaton} : s.automaton path silent = .ok a ↔
      Path.extension? path = some extension ∧ ∃ bytes, s.find path = .ok bytes ∧
        Aldebaran.read (silent.map String.toList) bytes = .ok a := by
  unfold automaton
  by_cases hext : Path.extension? path = some extension
  · rw [if_pos hext, and_iff_right hext]
    cases hfind : s.find path with
    | error e => simp only [reduceCtorEq, false_and, exists_false]
    | ok bytes =>
        simp only [Except.ok.injEq, exists_eq_left']
        exact mapError_eq_ok_iff
  · rw [if_neg hext]
    simp only [reduceCtorEq, hext, false_and]

/-- What there is after a text was written to a file, or among the results: whether it
    could be written, the results, and the file system. -/
def delivered (output : Option String) (text : String) (results : List String) (s : FileSystem) :
    Except String Unit × List String × FileSystem :=
  match output with
  | none => (.ok (), text :: results, s)
  | some path =>
    match s.put path text with
    | .error e => (.error e.report, results, s)
    | .ok s => (.ok (), results, s)

/-- The text of the deterministic automaton with numbers for its states. -/
def determinizedText (a : Aldebaran.Automaton) (accepting : List Nat) : String :=
  Aldebaran.text (a.toNfa (accepting.map Index.mk)).determinize.renumber

variable {path : String} {silent : List String} {results : List String} {s : FileSystem}

theorem ensures_orFail {ε α : Type} {text : ε → String} {x : Except ε α}
    {post : Except String α → List String → FileSystem → Prop}
    (h : post (x.mapError text) results s) : (orFail text x).Ensures results s post := by
  cases x with
  | ok a => exact ensures_pure h
  | error e => exact ensures_throw h

/-- A command reads what there is in the file system. -/
theorem ensures_readAutomaton
    {post : Except String Aldebaran.Automaton → List String → FileSystem → Prop}
    (h : post (s.automaton path silent) results s) :
    (readAutomaton path silent).Ensures results s post := by
  unfold FileSystem.automaton at h
  unfold readAutomaton
  by_cases hext : Path.extension? path = some extension
  · rw [if_pos hext] at h
    rw [if_neg (not_not_intro hext)]
    apply Ensures.bind
    apply ensures_readFile
    apply Ensures.bind
    apply ensures_orFail
    cases hfind : s.find path with
    | error e =>
        rw [hfind] at h
        exact h
    | ok bytes =>
        rw [hfind] at h
        apply Ensures.timed
        apply Ensures.bind
        apply ensures_noting
        intro limit
        rw [Aldebaran.readNoting_fst]
        exact ensures_orFail h
  · -- Nothing is read if the extension is wrong.
    rw [if_neg hext] at h
    rw [if_pos hext]
    apply Ensures.bind
    exact ensures_throw h

theorem ensures_determinized {a : Nfa StateIndex}
    {post : Except String (Dfa (SortedSet StateIndex)) → List String → FileSystem → Prop}
    (h : post (.ok a.determinize) results s) : (determinized a).Ensures results s post := by
  apply Ensures.bind
  apply ensures_now
  intro start
  apply Ensures.bind
  apply ensures_now
  intro stop
  apply ensures_noting
  intro limit
  exact h

/-- Saving a text delivers it. -/
theorem ensures_delivered {file text : String} {f : Except FileError Unit → Activity Unit}
    (hf : ∀ x results s, (f x).Ensures results s fun r results' s' =>
      (r, results', s') = (x.mapError FileError.report, results, s)) :
    (request (.save file text .done) >>= f).Ensures results s fun r results' s' =>
      (r, results', s') = delivered (some file) text results s := by
  apply Ensures.bind
  apply ensures_saveFile
  unfold delivered
  cases hput : s.put file text with
  | error e =>
      simp only [hput]
      exact hf (.error e) results s
  | ok s' =>
      simp only [hput]
      exact hf (.ok ()) results s'

/-- Determinizing writes the text of the deterministic automaton, if the file can be read,
    and otherwise nothing. -/
theorem ensures_determinize {accepting : List Nat} {output : Option String} :
    (determinize path silent accepting output).Ensures results s fun r results' s' =>
      (r, results', s') = match s.automaton path silent with
        | .error e => (.error e, results, s)
        | .ok a => delivered output (determinizedText a accepting) results s := by
  apply Ensures.bind
  apply ensures_readAutomaton
  cases s.automaton path silent with
  | error e => rfl
  | ok a =>
      apply Ensures.bind
      apply Ensures.timed
      apply Ensures.bind
      apply ensures_determinized
      apply ensures_pure
      apply Ensures.bind
      apply ensures_report
      cases output with
      | none =>
          apply Ensures.bind
          apply ensures_noting
          intro limit
          apply Ensures.bind
          apply ensures_orFail
          apply ensures_say
          rfl
      | some file =>
          apply ensures_delivered
          intro x results s
          apply Ensures.bind
          apply ensures_orFail
          cases x with
          | error e => rfl
          | ok _ =>
              apply Ensures.bind
              apply ensures_noting
              intro limit
              apply ensures_pure
              rfl

/-! ## Sessions of the tool -/

/-- Reporting the times after a command makes no difference to what it ensures. -/
theorem ensures_withTimes {a : Arguments} {act : Activity Unit}
    {post : Except String Unit → List String → FileSystem → Prop}
    (h : act.Ensures results s post) :
    (act >>= fun _ => if a.has .timings = true then do (← get).timing.lines.forM reportLine
      else pure ()).Ensures results s post := by
  apply Ensures.bind
  apply h.imp
  intro r results s hr
  cases r with
  | error e => exact hr
  | ok _ =>
      show Ensures _ _ _ _
      by_cases htimings : a.has .timings = true
      · rw [if_pos htimings]
        apply Ensures.bind
        apply ensures_get
        intro console
        exact ensures_forM_report hr
      · rw [if_neg htimings]
        exact ensures_pure hr

/-- A session ends with some results, here with the last one first, and with an error as
    the last line of its reports, if there was one. -/
def Outcome.Shows (o : Outcome) (r : Except String Unit) (results : List String) : Prop :=
  o.results = String.join results.reverse ∧
    match r with
    | .error e => o.exitCode = 1 ∧ ∃ before, o.reports = before ++ "Error: " ++ e ++ "\n"
    | .ok () => o.exitCode = 0

/-- The tool shows what the command comes to that its arguments ask for. -/
theorem run_shows {arguments : List String} {a : Arguments}
    {post : Except String Unit → List String → FileSystem → Prop}
    (hread : Arguments.read arguments = .ok a) (hversion : a.has .version = false)
    (h : (perform a).Ensures [] s post) : (run arguments).Ensures s fun o s' =>
      ∃ r results, post r results s' ∧ o.Shows r results := by
  unfold run
  simp only [hread, hversion, Bool.false_eq_true, if_false]
  apply Session.Ensures.bind
  apply (h (.empty a.limit) rfl).imp
  rintro ⟨r, console⟩ s' hr
  refine ⟨r, console.results, hr, ?_⟩
  cases r with
  | error e => exact ⟨rfl, rfl, String.join console.reports.reverse, rfl⟩
  | ok _ => exact ⟨rfl, rfl⟩

end Tool

end WordAutomata
