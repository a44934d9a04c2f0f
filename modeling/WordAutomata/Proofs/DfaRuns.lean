import WordAutomata.Dfa.Run

/-!
# Deterministic Runs

What a deterministic run does is settled by the rules it finds. If there is one
wherever the run comes to, for every letter that it reads, then the run is a fold
over the word. If there is none the run stops in front of the letter and reports
the state and the letter.

The two facts are stated for any rulebook, with a property of states that the
rules keep, so that a use has to name only the property and the function that the
rules compute.

A run never takes an epsilon rule, but a path may. Where there are none, a path for
a word is a run that finds all its rules, and there is one at most.

## Theorems

* `Dfa.Rulebook.next_of_mem`, `next_of_forall_ne`: Rules that are there, and
  rules that are not.
* `Dfa.Run.readWord_append`: Reading one word after the other.
* `Dfa.Run.exists_next_eq_error`: Where a word could not be read.
* `Dfa.Run.readWord_eq_foldl`: A run that never lacks a rule is a fold.
* `Dfa.accepts_of_none`, `accepts_of_some`: The answer to a word by its run.
* `Dfa.path_iff_readWord`: Without epsilon rules, paths are runs.
* `Dfa.judge_eq_ok_true_iff`, `accepts_eq_error_iff`: Then paths tell the answer.
-/

universe u

namespace WordAutomata

namespace Dfa

variable {S : Type u} [Ordered S]

namespace Rulebook

variable {b : Rulebook S}

theorem next_of_mem {s t : S} {x : Symbol} (h : ⟨s, x, t⟩ ∈ b.rules) : b.next s x = .ok t := by
  have hr : b.rule? s x = some ⟨s, x, t⟩ := Catalogue.lookUp?_of_mem b.tabulated h
  rw [next, hr]

theorem next_eq_ok_iff {s t : S} {x : Symbol} : b.next s x = .ok t ↔ ⟨s, x, t⟩ ∈ b.rules := by
  constructor
  · intro h
    unfold next at h
    cases hr : b.rule? s x with
    | none =>
        rw [hr] at h
        cases h
    | some r =>
        rw [hr] at h
        cases h
        rw [rule?_eq] at hr
        -- The rule that was found applies, so it has this source and this symbol.
        have happ := List.find?_some hr
        simp only [Finite.Rule.applies, Bool.and_eq_true, decide_eq_true_eq] at happ
        rcases happ with ⟨rfl, rfl⟩
        exact List.mem_of_find?_eq_some hr
  · exact next_of_mem

/-- What is reported is the state and the symbol for which there is no rule. -/
theorem eq_of_next_eq_error {s : S} {x : Symbol} {e : MissingRule S} (h : b.next s x = .error e) :
    e = ⟨s, x⟩ := by
  unfold next at h
  cases hr : b.rule? s x with
  | none =>
      rw [hr, Except.error.injEq] at h
      exact h.symm
  | some r =>
      rw [hr] at h
      cases h

theorem next_of_forall_ne {s : S} {x : Symbol} (h : ∀ r ∈ b.rules, r.symbol ≠ x) :
    b.next s x = .error ⟨s, x⟩ := by
  have hr : b.rule? s x = none := by
    rw [rule?_eq, List.find?_eq_none]
    intro r hr
    simp only [Finite.Rule.applies, h r hr, decide_false, Bool.and_false, Bool.false_eq_true,
      not_false_eq_true]
  rw [next, hr]

end Rulebook

namespace Run

variable [Describe S] {run : Run S}

theorem automaton_readWord {w : List Char} : (run.readWord w).1.automaton = run.automaton := by
  induction w generalizing run with
  | nil => rfl
  | cons c w ih =>
      rw [readWord, read]
      cases run.automaton.rulebook.next run.state (.character c) with
      | error e => rfl
      | ok t => exact ih

theorem read_of_next {c : Char} {t : S}
    (h : run.automaton.rulebook.next run.state (.character c) = .ok t) :
    ∃ log, run.read c = .ok ⟨run.automaton, t, log⟩ := by
  rw [read, h]
  exact ⟨_, rfl⟩

theorem readWord_cons_of_ok {c : Char} {w : List Char} {next : Run S} (h : run.read c = .ok next) :
    run.readWord (c :: w) = next.readWord w := by
  rw [readWord, h]

theorem readWord_cons_of_error {c : Char} {w : List Char} {e : MissingRule S}
    (h : run.automaton.rulebook.next run.state (.character c) = .error e) :
    run.readWord (c :: w) = (run, some e) := by
  rw [readWord, read, h]

/-- A word that could be read is followed by what comes after it. -/
theorem readWord_append {v w : List Char} (h : (run.readWord v).2 = none) :
    run.readWord (v ++ w) = (run.readWord v).1.readWord w := by
  induction v generalizing run with
  | nil => rfl
  | cons c v ih =>
      cases hread : run.read c with
      | error e =>
          -- The first word would have failed at its first character.
          rw [readWord, hread] at h
          exact absurd h (by simp only [reduceCtorEq, not_false_eq_true])
      | ok next =>
          rw [readWord_cons_of_ok hread] at h
          rw [List.cons_append, readWord_cons_of_ok hread, readWord_cons_of_ok hread]
          exact ih h

/-- Up to a character that lacks a rule the word is read, and what comes after the
    character makes no difference. -/
theorem readWord_append_cons_of_error {u : List Char} {c : Char} {e : MissingRule S}
    (hu : (run.readWord u).2 = none)
    (hnext : run.automaton.rulebook.next (run.readWord u).1.state (.character c) = .error e)
    (v : List Char) : run.readWord (u ++ c :: v) = ((run.readWord u).1, some e) := by
  rw [readWord_append hu]
  apply readWord_cons_of_error
  rw [automaton_readWord]
  exact hnext

/-- A word that could not be read has a first character that lacks a rule. -/
theorem exists_next_eq_error {w : List Char} {e : MissingRule S} (h : (run.readWord w).2 = some e) :
    ∃ u c v, w = u ++ c :: v ∧ (run.readWord u).2 = none ∧
      run.automaton.rulebook.next (run.readWord u).1.state (.character c) = .error e := by
  induction w generalizing run with
  | nil => cases h
  | cons c w ih =>
      cases hnext : run.automaton.rulebook.next run.state (.character c) with
      | error e' =>
          rw [readWord_cons_of_error hnext, Option.some.injEq] at h
          subst h
          exact ⟨[], c, w, rfl, rfl, hnext⟩
      | ok t =>
          -- The character is read, so the one without a rule comes later.
          rcases read_of_next hnext with ⟨log, hread⟩
          rw [readWord_cons_of_ok hread] at h
          rcases ih h with ⟨u, d, v, rfl, hu, hd⟩
          refine ⟨c :: u, d, v, rfl, ?_, ?_⟩
          · rw [readWord_cons_of_ok hread]
            exact hu
          · rw [readWord_cons_of_ok hread]
            exact hd

/-- A run that finds a rule wherever it comes to is a fold. -/
theorem readWord_eq_foldl (run : Run S) {P : S → Prop} {letter : Char → Prop}
    {f : S → Char → S}
    (hnext : ∀ s c, P s → letter c →
      run.automaton.rulebook.next s (.character c) = .ok (f s c) ∧ P (f s c))
    (hs : P run.state) {w : List Char} (hw : ∀ c ∈ w, letter c) :
    (run.readWord w).2 = none ∧ (run.readWord w).1.automaton = run.automaton ∧
      (run.readWord w).1.state = w.foldl f run.state ∧ P (w.foldl f run.state) := by
  induction w generalizing run with
  | nil => exact ⟨rfl, rfl, rfl, hs⟩
  | cons c w ih =>
      have hstep := hnext run.state c hs (hw c List.mem_cons_self)
      rcases read_of_next hstep.1 with ⟨log, hread⟩
      rw [readWord_cons_of_ok hread]
      exact ih ⟨run.automaton, f run.state c, log⟩ hnext hstep.2
        fun d hd => hw d (List.mem_cons_of_mem c hd)

end Run

variable [Describe S] {a : Dfa S} {w : List Char}

/-- The answer to a word is told by where its run ends and how. -/
theorem judge_fst (log : Log) : (a.judge w log).1 = match ((a.run log).readWord w).2 with
    | none => .ok ((a.run log).readWord w).1.isAccepting
    | some e => .error e := by
  rw [judge]
  rcases (a.run log).readWord w with ⟨run, _ | e⟩
  · rfl
  · rfl

theorem accepts_of_none (h : ((a.run .silent).readWord w).2 = none) :
    a.accepts w = .ok ((a.run .silent).readWord w).1.isAccepting := by
  rw [accepts, judge_fst, h]

theorem accepts_of_some {e : MissingRule S} (h : ((a.run .silent).readWord w).2 = some e) :
    a.accepts w = .error e := by
  rw [accepts, judge_fst, h]

/-- Without epsilon rules the only path for a word is the run. -/
theorem path_iff_readWord (hfree : ∀ r ∈ a.rulebook.rules, r.symbol ≠ .epsilon) (log : Log)
    {s t : S} : Finite.Path a.rulebook.rules s w t ↔
      ((a.runFrom s log).readWord w).2 = none ∧ ((a.runFrom s log).readWord w).1.state = t := by
  constructor
  · intro h
    induction h generalizing log with
    | refl s => exact ⟨rfl, rfl⟩
    | free hr _ _ => exact absurd rfl (hfree _ hr)
    | @read s t _ c _ hr _ ih =>
        have hnext : (a.runFrom s log).automaton.rulebook.next s (.character c) = .ok t :=
          Rulebook.next_of_mem hr
        rcases Run.read_of_next hnext with ⟨log', hread⟩
        rw [Run.readWord_cons_of_ok hread]
        exact ih log'
  · rintro ⟨hnone, rfl⟩
    induction w generalizing s log with
    | nil => exact .refl s
    | cons c w ih =>
        cases hnext : (a.runFrom s log).automaton.rulebook.next s (.character c) with
        | error e =>
            rw [Run.readWord_cons_of_error hnext] at hnone
            cases hnone
        | ok t =>
            rcases Run.read_of_next hnext with ⟨log', hread⟩
            rw [Run.readWord_cons_of_ok hread] at hnone ⊢
            exact .read (Rulebook.next_eq_ok_iff.1 hnext) (ih log' hnone)

/-- Without epsilon rules the answer is yes exactly if a path for the word leads from the
    start state to an accept state. -/
theorem judge_eq_ok_true_iff (hfree : ∀ r ∈ a.rulebook.rules, r.symbol ≠ .epsilon) (log : Log) :
    (a.judge w log).1 = .ok true ↔
      ∃ t ∈ a.accepting, Finite.Path a.rulebook.rules a.start w t := by
  have haccepting : ((a.run log).readWord w).1.isAccepting = true ↔
      ((a.run log).readWord w).1.state ∈ a.accepting := by
    rw [Run.isAccepting, Run.automaton_readWord]
    exact SortedSet.contains_iff
  simp only [path_iff_readWord hfree log, judge_fst]
  constructor
  · intro h
    cases hrun : ((a.run log).readWord w).2 with
    | some e =>
        rw [hrun] at h
        cases h
    | none =>
        rw [hrun, Except.ok.injEq] at h
        exact ⟨_, haccepting.1 h, hrun, rfl⟩
  · rintro ⟨t, ht, hrun, rfl⟩
    have hnone : ((a.run log).readWord w).2 = none := hrun
    rw [hnone, haccepting.2 ht]

/-- Without epsilon rules there is no answer exactly if there is no path for the word. -/
theorem accepts_eq_error_iff (hfree : ∀ r ∈ a.rulebook.rules, r.symbol ≠ .epsilon) :
    (∃ e, a.accepts w = .error e) ↔ ¬ ∃ t, Finite.Path a.rulebook.rules a.start w t := by
  simp only [path_iff_readWord hfree .silent, exists_and_left, exists_eq', and_true]
  show _ ↔ ¬ ((a.run .silent).readWord w).2 = none
  cases hrun : ((a.run .silent).readWord w).2 with
  | none => simp only [accepts_of_none hrun, reduceCtorEq, exists_false, not_true_eq_false]
  | some e => simp only [accepts_of_some hrun, Except.error.injEq, exists_eq', reduceCtorEq,
      not_false_eq_true]

end Dfa

end WordAutomata
