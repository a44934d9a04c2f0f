import WordAutomata.Proofs.NpdaRuns
import WordAutomata.Proofs.Records
import WordAutomata.Proofs.SpelledTrails

/-!
# Pushdown Runs and Courses of Rules

A course is a row of rules, taken one after the other. Each rule leaves its source,
finds the symbol that it pops on top of the stack, and leaves what it pushes there.
What a course spells stands on its rules, the epsilons struck out.

A run holds sets of configurations and knows nothing of courses. Still, each
configuration that it holds is the end of a course that spells the word, so what is
accepted is accepted by some course. The converse needs closures that are
complete. After each character a run closes a new set, and up to which height it
does so is found anew from that set. If one of these closures is infinite it is
truncated, and whatever is missing from it is missing later on. If all of them are
finite, then the run holds the ends of all courses, and of nothing else.

Whether a closure is infinite can be told without the run: all are finite if, for
each beginning of the word, courses that spell it have only finitely many ends. It can
also be told from the log, which has a warning for each closure that is not.

## Main definitions

* `Pushdown.ruleKind`: Rules as steps from a state and a stack to others.
* `Pushdown.Course`: A row of rules that leads from one configuration to another.
* `Pushdown.spelled`: The word on a row of rules.
* `Npda.Rulebook.toClose`: The sets that a run closes.
* `Npda.Leads`: A course from the start spells a word.

## Theorems

* `Pushdown.reaches_iff_exists_course`: What rules reach is the end of a course.
* `Npda.Rulebook.mem_foldl_advance_iff`: Complete closures lose nothing.
* `Npda.Rulebook.finite_toClose_iff`: When all closures are complete.
* `Npda.Run.recordsOf_warn_readWord`: The warnings of a run.
* `Npda.readWord_follows_courses`: A run and the courses for its word.
-/

universe u

namespace WordAutomata

open Pushdown

namespace Pushdown

section Courses

variable {S : Type u}

/-- Rules of pushdown automata lead from a state and a stack to others. A rule leaves its
    source with its popped symbol on top, and comes to its target with its pushed symbols
    in place of it. -/
def ruleKind : RuleKind (Rule S) (S × List Char) where
  symbol := Rule.symbol
  leads r p q := ∃ below, p = (r.source, r.popped :: below) ∧ q = (r.target, r.pushed ++ below)

/-- A row of rules leads from a state and a stack to others. Each rule leaves its source
    with its popped symbol on top, and comes to its target with its pushed symbols in
    place of it. -/
def Course (s : S) (stack : List Char) (course : List (Rule S)) (t : S) (stack' : List Char) :
    Prop :=
  ruleKind.Trail (s, stack) course (t, stack')

/-- The characters on a row of rules, in order. Epsilons leave nothing. -/
def spelled (course : List (Rule S)) : List Char := ruleKind.spelled course

end Courses

variable {S : Type u} [Ordered S] {rules : List (Rule S)} {c d e : Configuration S} {s t : S}
  {stack stack' : List Char} {w : List Char}

/-- The configuration of a state and a stack. -/
def configured (p : S × List Char) : Configuration S := .of p.1 (.ofList p.2)

/-- A rule is taken in a configuration exactly if it leads on from the state and the
    stack. -/
theorem step_configured_iff {symbol : Symbol} {p : S × List Char} :
    Step rules symbol (configured p) d ↔
      ∃ r ∈ rules, r.symbol = symbol ∧ ∃ q, ruleKind.leads r p q ∧ d = configured q := by
  rcases p with ⟨s, stack⟩
  have hfollow : ∀ (r : Rule S) below, r.follow (configured (s, r.popped :: below)) =
      configured (r.target, r.pushed ++ below) := fun r below =>
    Configuration.ext_symbols rfl rfl
  constructor
  · rintro ⟨r, hr, happ, rfl⟩
    rcases Rule.applies_iff.1 happ with ⟨⟨hstate, htop⟩, hsymbol⟩
    rcases List.head?_eq_some_iff.1 htop with ⟨below, hbelow⟩
    obtain rfl : stack = r.popped :: below := hbelow
    obtain rfl : s = r.source := Option.some.inj hstate
    exact ⟨r, hr, hsymbol, _, ⟨below, rfl, rfl⟩, hfollow r below⟩
  · rintro ⟨r, hr, hsymbol, q, ⟨below, hp, rfl⟩, rfl⟩
    rcases Prod.mk.inj hp with ⟨rfl, rfl⟩
    exact ⟨r, hr, Rule.applies_iff.2 ⟨⟨rfl, rfl⟩, hsymbol⟩, (hfollow r below).symm⟩

/-- Rules reach what the trails of these rules lead to. -/
theorem reaches_configured_iff {p : S × List Char} : Reaches rules (configured p) w d ↔
    ∃ q, d = configured q ∧ ruleKind.Spells rules p w q := by
  constructor
  · intro h
    generalize hc : configured p = c at h
    induction h generalizing p with
    | refl c => exact ⟨p, hc.symm, RuleKind.spells_refl p⟩
    | free hstep _ ih =>
        subst hc
        rcases step_configured_iff.1 hstep with ⟨r, hr, hsymbol, m, hleads, rfl⟩
        rcases ih rfl with ⟨q, hq, hspells⟩
        exact ⟨q, hq, hspells.free hr hsymbol hleads⟩
    | read hstep _ ih =>
        subst hc
        rcases step_configured_iff.1 hstep with ⟨r, hr, hsymbol, m, hleads, rfl⟩
        rcases ih rfl with ⟨q, hq, hspells⟩
        exact ⟨q, hq, hspells.read hr hsymbol hleads⟩
  · rintro ⟨q, rfl, hspells⟩
    refine RuleKind.Spells.induction hspells (.refl _) ?_ ?_
    · intro r p m w hr hsymbol hleads hrest
      exact .free (step_configured_iff.2 ⟨r, hr, hsymbol, m, hleads, rfl⟩) hrest
    · intro r x p m w hr hsymbol hleads hrest
      exact .read (step_configured_iff.2 ⟨r, hr, hsymbol, m, hleads, rfl⟩) hrest

/-- Rules reach what courses lead to. -/
theorem reaches_iff_exists_course : Reaches rules (.of s (.ofList stack)) w d ↔
    ∃ t stack', d = .of t (.ofList stack') ∧ ∃ course, Course s stack course t stack' ∧
      (∀ r ∈ course, r ∈ rules) ∧ spelled course = w := by
  have hpairs : Reaches rules (configured (s, stack)) w d ↔
      ∃ q, d = configured q ∧ ruleKind.Spells rules (s, stack) w q := reaches_configured_iff
  rw [Prod.exists] at hpairs
  exact hpairs

/-! ## The first character -/

theorem reaches_nil_iff : Reaches rules c [] d ↔ FreelyReaches rules c d := by
  constructor
  · intro h
    generalize hw : ([] : List Char) = w at h
    induction h with
    | refl _ => exact .refl
    | free hstep _ ih => exact .head hstep (ih hw)
    | read _ _ _ => exact absurd hw.symm (List.cons_ne_nil _ _)
  · intro h
    exact h.trans_reaches (.refl d)

theorem freeClosure_eq (rules : List (Rule S)) (cs : SortedSet (Configuration S)) :
    freeClosure rules cs = {d | ∃ c ∈ cs, Reaches rules c [] d} := by
  simp only [reaches_nil_iff]
  rfl

/-- The first character is read by one rule, after epsilon rules. -/
theorem reaches_cons_iff {x : Char} : Reaches rules c (x :: w) e ↔
    ∃ p q, FreelyReaches rules c p ∧ Step rules (.character x) p q ∧ Reaches rules q w e := by
  constructor
  · intro h
    generalize hv : x :: w = v at h
    induction h with
    | refl _ => exact absurd hv (List.cons_ne_nil x w)
    | free hstep _ ih =>
        rcases ih hv with ⟨p, q, hp, hpq, hq⟩
        exact ⟨p, q, .head hstep hp, hpq, hq⟩
    | read hstep hrest _ =>
        rcases List.cons.inj hv with ⟨rfl, rfl⟩
        exact ⟨_, _, .refl, hstep, hrest⟩
  · rintro ⟨p, q, hp, hpq, hq⟩
    exact hp.trans_reaches (.read hpq hq)

end Pushdown

namespace Npda

variable {S : Type u} [Ordered S]

namespace Rulebook

variable {b : Rulebook S} {cs : SortedSet (Configuration S)} {d : Configuration S} {w : List Char}

/-- The sets that a run closes while it reads a word, one for each character. -/
def stepped (b : Rulebook S) :
    SortedSet (Configuration S) → List Char → List (SortedSet (Configuration S))
  | _, [] => []
  | cs, x :: w => b.step cs (.character x) :: b.stepped (b.advance cs x) w

/-- The sets that a run closes if it starts with a set and then reads a word. -/
def toClose (b : Rulebook S) (cs : SortedSet (Configuration S)) (w : List Char) :
    List (SortedSet (Configuration S)) :=
  cs :: b.stepped (b.closure cs).configurations w

theorem toClose_cons (b : Rulebook S) (cs : SortedSet (Configuration S)) (x : Char)
    (w : List Char) : b.toClose cs (x :: w) =
      cs :: b.toClose (b.step (b.closure cs).configurations (.character x)) w := rfl

theorem mem_closure_of_finite (hfinite : (freeClosure b.rules cs).Finite) :
    d ∈ (b.closure cs).configurations ↔ d ∈ freeClosure b.rules cs :=
  ⟨mem_freeClosure_of_mem_closure, mem_closure_of_complete (finite_iff_not_truncated.1 hfinite)⟩

/-- If a closure is complete, then the next character can be read from it alone. -/
theorem exists_reaches_cons_iff (hfinite : (freeClosure b.rules cs).Finite) {x : Char} :
    (∃ c ∈ cs, Reaches b.rules c (x :: w) d) ↔
      ∃ q ∈ b.step (b.closure cs).configurations (.character x), Reaches b.rules q w d := by
  simp only [mem_step, mem_closure_of_finite hfinite, reaches_cons_iff]
  constructor
  · rintro ⟨c, hc, p, q, hp, hpq, hq⟩
    exact ⟨q, ⟨p, ⟨c, hc, hp⟩, hpq⟩, hq⟩
  · rintro ⟨q, ⟨p, ⟨c, hc, hp⟩, hpq⟩, hq⟩
    exact ⟨c, hc, p, q, hp, hpq, hq⟩

/-- If all closures are complete, a run holds all that rules reach. -/
theorem mem_foldl_advance_iff
    (hfinite : ∀ ds ∈ b.toClose cs w, (freeClosure b.rules ds).Finite) :
    d ∈ w.foldl b.advance (b.closure cs).configurations ↔ ∃ c ∈ cs, Reaches b.rules c w d := by
  induction w generalizing cs with
  | nil =>
      have hcs := hfinite cs List.mem_cons_self
      simp only [List.foldl_nil, mem_closure_of_finite hcs, reaches_nil_iff]
      rfl
  | cons x w ih =>
      rw [toClose_cons, List.forall_mem_cons] at hfinite
      rw [List.foldl_cons, advance, ih hfinite.2, exists_reaches_cons_iff hfinite.1]

/-- All closures are complete if, for each beginning of the word, rules reach only
    finitely many configurations. -/
theorem finite_toClose_iff : (∀ ds ∈ b.toClose cs w, (freeClosure b.rules ds).Finite) ↔
    ∀ u, u <+: w → {d | ∃ c ∈ cs, Reaches b.rules c u d}.Finite := by
  induction w generalizing cs with
  | nil =>
      simp only [toClose, stepped, List.mem_singleton, forall_eq, List.prefix_nil, freeClosure_eq]
  | cons x w ih =>
      rw [toClose_cons, List.forall_mem_cons]
      -- The empty beginning is about the first closure. All others start with the first
      -- character, and are about the closures that come after it.
      constructor
      · rintro ⟨hcs, hrest⟩ u hu
        cases u with
        | nil =>
            rw [← freeClosure_eq]
            exact hcs
        | cons y u =>
            rcases List.cons_prefix_cons.1 hu with ⟨rfl, hprefix⟩
            simp only [exists_reaches_cons_iff hcs]
            exact ih.1 hrest u hprefix
      · intro h
        have hcs : (freeClosure b.rules cs).Finite := by
          rw [freeClosure_eq]
          exact h [] List.nil_prefix
        refine ⟨hcs, ih.2 fun u hu => ?_⟩
        have hu := h (x :: u) (List.cons_prefix_cons.2 ⟨rfl, hu⟩)
        simp only [exists_reaches_cons_iff hcs] at hu
        exact hu

/-- The warnings of the closures of some sets. -/
def warnings (b : Rulebook S) (sets : List (SortedSet (Configuration S))) : List Record :=
  ((sets.map b.closure).filter Closure.truncated).map fun closure =>
    ⟨.warn, truncationText closure.limit⟩

theorem warnings_cons (b : Rulebook S) (cs : SortedSet (Configuration S))
    (sets : List (SortedSet (Configuration S))) :
    b.warnings (cs :: sets) = b.warnings [cs] ++ b.warnings sets := by
  unfold warnings
  rw [List.map_cons, ← List.singleton_append, List.filter_append, List.map_append]
  rfl

/-- There are no warnings if all closures are complete. -/
theorem warnings_eq_nil_iff {sets : List (SortedSet (Configuration S))} :
    b.warnings sets = [] ↔ ∀ cs ∈ sets, (freeClosure b.rules cs).Finite := by
  unfold warnings
  simp only [List.map_eq_nil_iff, List.filter_eq_nil_iff, List.forall_mem_map,
    finite_iff_not_truncated, Bool.not_eq_true]

end Rulebook

theorem keeps_noteClosure {closure : Closure S} {log : Log} {level : Level} :
    (noteClosure closure log).keeps level = log.keeps level := by
  unfold noteClosure
  split
  · exact Log.keeps_note
  · rfl

theorem recordsOf_warn_noteClosure (b : Rulebook S) (cs : SortedSet (Configuration S)) {log : Log}
    (hkeeps : log.keeps .warn = true) :
    (noteClosure (b.closure cs) log).recordsOf .warn = log.recordsOf .warn ++ b.warnings [cs] := by
  rw [Rulebook.recordsOf_noteClosure, Rulebook.warnings, List.map_singleton]
  by_cases htruncated : (b.closure cs).truncated = true
  · rw [if_pos ⟨htruncated, rfl, hkeeps⟩, List.filter_cons_of_pos htruncated]
    rfl
  · rw [if_neg fun hall => htruncated hall.1, List.filter_cons_of_neg htruncated]
    rfl

variable [Describe S]

/-- A run warns of the closures that are truncated, and of nothing else. -/
theorem Run.recordsOf_warn_readWord {run : Run S} (hkeeps : run.log.keeps .warn = true)
    (w : List Char) : (run.readWord w).log.recordsOf .warn = run.log.recordsOf .warn ++
      run.automaton.rulebook.warnings (run.automaton.rulebook.stepped run.configurations w) := by
  induction w generalizing run with
  | nil => exact (List.append_nil _).symm
  | cons x w ih =>
      have hlog : (run.read x).log = (noteClosure (run.automaton.rulebook.closure
            (run.automaton.rulebook.step run.configurations (.character x))) run.log).note .trace
          fun _ => stepText x (run.read x).configurations := rfl
      have hrest := @ih (run.read x) (by rw [hlog, Log.keeps_note, keeps_noteClosure, hkeeps])
      -- Tracing the step adds no warning, so there are only those of the closure.
      rw [hlog, Log.recordsOf_note_of_ne (by decide), recordsOf_warn_noteClosure _ _ hkeeps,
        List.append_assoc] at hrest
      rw [Rulebook.stepped, Rulebook.warnings_cons]
      exact hrest

/-- From its start a run warns of each closure that is infinite. -/
theorem recordsOf_warn_run (a : Npda S) {log : Log} (hkeeps : log.keeps .warn = true)
    (w : List Char) : ((a.run log).readWord w).log.recordsOf .warn = log.recordsOf .warn ++
      a.rulebook.warnings (a.rulebook.toClose (.singleton a.startConfiguration) w) := by
  have hlog : (a.run log).log =
      noteClosure (a.rulebook.closure (.singleton a.startConfiguration)) log := rfl
  have hkeeps' : (a.run log).log.keeps .warn = true := by
    rw [hlog, keeps_noteClosure, hkeeps]
  have hrest := Run.recordsOf_warn_readWord hkeeps' w
  rw [hlog, recordsOf_warn_noteClosure _ _ hkeeps, List.append_assoc] at hrest
  rw [Rulebook.toClose, Rulebook.warnings_cons]
  exact hrest

/-- A course of rules of the automaton leads from its start state, with the bottom
    character on the stack, to a state and a stack, and spells a word. -/
def Leads (a : Npda S) (w : List Char) (t : S) (stack : List Char) : Prop :=
  ∃ course, Course a.start [a.bottom] course t stack ∧
    (∀ r ∈ course, r ∈ a.rulebook.rules) ∧ spelled course = w

variable {a : Npda S} {w : List Char} {d : Configuration S}

omit [Describe S] in
theorem reaches_start_iff : Reaches a.rulebook.rules a.startConfiguration w d ↔
    ∃ t stack, d = .of t (.ofList stack) ∧ a.Leads w t stack := by
  unfold startConfiguration Leads
  exact reaches_iff_exists_course

/-- The configurations of a run from the start after a word. -/
theorem configurations_run (a : Npda S) (log : Log) (w : List Char) :
    ((a.run log).readWord w).configurations = w.foldl a.rulebook.advance
      (a.rulebook.closure (.singleton a.startConfiguration)).configurations :=
  Run.configurations_readWord

/-- What a run holds is the end of a course that spells the word. -/
theorem leads_of_mem_configurations {log : Log}
    (hd : d ∈ ((a.run log).readWord w).configurations) :
    ∃ t stack, d = .of t (.ofList stack) ∧ a.Leads w t stack := by
  rw [configurations_run] at hd
  rcases Rulebook.reaches_of_mem_foldl hd with ⟨c, hc, hrest⟩
  rcases Rulebook.mem_freeClosure_of_mem_closure hc with ⟨s, hs, hfree⟩
  rw [SortedSet.mem_singleton] at hs
  subst hs
  exact reaches_start_iff.1 (hfree.trans_reaches hrest)

/-- If all closures are complete, then the run holds the ends of all courses. -/
theorem mem_configurations_iff {log : Log}
    (hfinite : ∀ cs ∈ a.rulebook.toClose (.singleton a.startConfiguration) w,
      (freeClosure a.rulebook.rules cs).Finite) :
    d ∈ ((a.run log).readWord w).configurations ↔
      ∃ t stack, d = .of t (.ofList stack) ∧ a.Leads w t stack := by
  rw [configurations_run, Rulebook.mem_foldl_advance_iff hfinite, ← reaches_start_iff]
  simp only [SortedSet.mem_singleton, exists_eq_left]

omit [Describe S] in
/-- A beginning of a word leads to as many configurations as states and stacks. -/
theorem finite_leads_iff : {p : S × List Char | a.Leads w p.1 p.2}.Finite ↔
    {d | ∃ c ∈ SortedSet.singleton a.startConfiguration,
      Reaches a.rulebook.rules c w d}.Finite := by
  -- A configuration with a state is nothing but the state and the stack.
  have hinjective : Function.Injective (configured : S × List Char → Configuration S) := by
    rintro ⟨t, stack⟩ ⟨t', stack'⟩ heq
    have hstate := congrArg Configuration.state? heq
    have hstack := congrArg (fun d : Configuration S => d.stack.symbols) heq
    exact Prod.ext (Option.some.inj hstate) hstack
  rw [← Set.finite_image_iff hinjective.injOn]
  have himage : configured '' {p | a.Leads w p.1 p.2} =
      {d | ∃ c ∈ SortedSet.singleton a.startConfiguration, Reaches a.rulebook.rules c w d} := by
    ext d
    simp only [Set.mem_image, Set.mem_ofPred_eq, SortedSet.mem_singleton, exists_eq_left,
      reaches_start_iff]
    constructor
    · rintro ⟨p, hp, rfl⟩
      exact ⟨p.1, p.2, rfl, hp⟩
    · rintro ⟨t, stack, rfl, h⟩
      exact ⟨(t, stack), h, rfl⟩
  rw [himage]

omit [Describe S] in
theorem isIn_of_iff {t : S} {stack : List Char} {states : SortedSet S} :
    (Configuration.of t (.ofList stack)).isIn states = true ↔ t ∈ states :=
  SortedSet.contains_iff

/-- A run and the courses of rules from the start. Each configuration that the run holds
    after a word is the end of a course that spells the word, so a word that is
    accepted is spelled by a course to an accept state. There is a warning unless
    all closures are finite, and they are exactly if no beginning of the word is
    spelled by courses with infinitely many ends. If they are, then the run holds
    the end of every course that spells the word, and a word is accepted if some
    course to an accept state spells it. -/
theorem readWord_follows_courses (a : Npda S) (w : List Char) (log : Log) :
    (∀ d ∈ ((a.run log).readWord w).configurations,
      ∃ t stack, d = .of t (.ofList stack) ∧ a.Leads w t stack) ∧
    (a.accepts w = true → ∃ t ∈ a.accepting, ∃ stack, a.Leads w t stack) ∧
    (log.keeps .warn = true →
      (((a.run log).readWord w).log.recordsOf .warn = log.recordsOf .warn ↔
        ∀ cs ∈ a.rulebook.toClose (.singleton a.startConfiguration) w,
          (freeClosure a.rulebook.rules cs).Finite)) ∧
    ((∀ cs ∈ a.rulebook.toClose (.singleton a.startConfiguration) w,
        (freeClosure a.rulebook.rules cs).Finite) ↔
      ∀ u, u <+: w → {p : S × List Char | a.Leads u p.1 p.2}.Finite) ∧
    ((∀ cs ∈ a.rulebook.toClose (.singleton a.startConfiguration) w,
        (freeClosure a.rulebook.rules cs).Finite) →
      (∀ d, d ∈ ((a.run log).readWord w).configurations ↔
        ∃ t stack, d = .of t (.ofList stack) ∧ a.Leads w t stack) ∧
      (a.accepts w = true ↔ ∃ t ∈ a.accepting, ∃ stack, a.Leads w t stack)) := by
  have hsound : ∀ d ∈ ((a.run .silent).readWord w).configurations,
      ∃ t stack, d = .of t (.ofList stack) ∧ a.Leads w t stack := fun d hd =>
    leads_of_mem_configurations hd
  have haccepts : a.accepts w = true ↔ ∃ d ∈ ((a.run .silent).readWord w).configurations,
      d.isIn a.accepting = true := by
    rw [accepts_iff, configurations_run]
  have haccepted : a.accepts w = true → ∃ t ∈ a.accepting, ∃ stack, a.Leads w t stack := by
    intro h
    rcases haccepts.1 h with ⟨d, hd, hin⟩
    rcases hsound d hd with ⟨t, stack, rfl, hleads⟩
    exact ⟨t, isIn_of_iff.1 hin, stack, hleads⟩
  refine ⟨fun d hd => leads_of_mem_configurations hd, haccepted, fun hkeeps => ?_, ?_,
    fun hfinite => ⟨fun d => mem_configurations_iff hfinite, haccepted, ?_⟩⟩
  · rw [recordsOf_warn_run a hkeeps, List.append_right_eq_self, Rulebook.warnings_eq_nil_iff]
  · rw [Rulebook.finite_toClose_iff]
    simp only [finite_leads_iff]
  · rintro ⟨t, ht, stack, hleads⟩
    have hd : .of t (.ofList stack) ∈ ((a.run .silent).readWord w).configurations :=
      (mem_configurations_iff hfinite).2 ⟨t, stack, rfl, hleads⟩
    exact haccepts.2 ⟨_, hd, isIn_of_iff.2 ht⟩

/-- An automaton that wants a `b` for each `a` before. When to turn from one letter to the
    other is left to epsilon rules. -/
def pairing : Npda Nat where
  start := 1
  bottom := '$'
  accepting := .singleton 3
  rulebook := .ofRules [⟨1, .character 'a', 1, '$', ['a', '$']⟩,
    ⟨1, .character 'a', 1, 'a', ['a', 'a']⟩, ⟨1, .epsilon, 2, 'a', ['a']⟩,
    ⟨2, .character 'b', 2, 'a', []⟩, ⟨2, .epsilon, 3, '$', ['$']⟩]

/-- All closures are finite here, so there is a course for the word that is accepted, and
    none for its beginning, which is not. -/
theorem readWord_follows_courses_pairing :
    (∀ cs ∈ pairing.rulebook.toClose (.singleton pairing.startConfiguration) ['a', 'a', 'b', 'b'],
      (freeClosure pairing.rulebook.rules cs).Finite) ∧
    (∃ t ∈ pairing.accepting, ∃ stack, pairing.Leads ['a', 'a', 'b', 'b'] t stack) ∧
    (¬ ∃ t ∈ pairing.accepting, ∃ stack, pairing.Leads ['a', 'a', 'b'] t stack) ∧
    (((pairing.run (.empty (some .warn))).readWord ['a', 'a', 'b', 'b']).log.recordsOf .warn =
      (Log.empty (some .warn)).recordsOf .warn) := by
  have hfinite : ∀ cs ∈ pairing.rulebook.toClose (.singleton pairing.startConfiguration)
      ['a', 'a', 'b', 'b'], (freeClosure pairing.rulebook.rules cs).Finite := by
    rw [← Rulebook.warnings_eq_nil_iff, ← List.isEmpty_iff]
    cbv
  rcases readWord_follows_courses pairing ['a', 'a', 'b', 'b'] (.empty (some .warn)) with
    ⟨_, haccepted, hwarn, hfinite_iff, _⟩
  rcases readWord_follows_courses pairing ['a', 'a', 'b'] (.empty (some .warn)) with
    ⟨_, _, _, hfinite_iff', hcomplete⟩
  have haccepts : pairing.accepts ['a', 'a', 'b', 'b'] = true := by cbv
  have hnot : pairing.accepts ['a', 'a', 'b'] = false := by cbv
  -- The closures for the shorter word are among those for the longer one.
  have hshorter := hfinite_iff'.2 fun u hu =>
    hfinite_iff.1 hfinite u (hu.trans (List.prefix_append _ ['b']))
  refine ⟨hfinite, haccepted haccepts, ?_, (hwarn rfl).2 hfinite⟩
  rw [← (hcomplete hshorter).2, hnot]
  exact Bool.false_ne_true

end Npda

end WordAutomata
