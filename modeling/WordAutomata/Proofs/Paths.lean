import WordAutomata.Nfa.Run
import WordAutomata.Proofs.Discovery

/-!
# Runs and Paths

A nondeterministic run moves a whole set of states at once: it closes the set
under epsilon rules, takes the rules for a character, and closes again. A path
takes one rule after the other. Both describe the same thing, and nearly all
that is worth knowing about an automaton is easier to say of paths, which can be
cut and joined anywhere.

The bridge is `mem_closure`: what a closure adds is what paths reach that read
nothing. A word is then read character by character. A path that reads a
character is a path that reads nothing, the rule for the character, and the
rest (`path_cons_iff`), which is one round of the run.

## Theorems

* `Finite.Path.append`, `Finite.Path.mono`: Joining paths, and adding rules.
* `Finite.path_cons_iff`: The first character of a path.
* `Nfa.Rulebook.mem_closure`: Closures and paths that read nothing.
* `Nfa.Rulebook.mem_foldl_next`: Reading a word and the paths for it.
* `Nfa.accepts_iff`: A word is accepted if a path for it ends in an accept state.
* `Nfa.Rulebook.closure_closure`, `closure_next`: Closed sets stay as they are.
-/

universe u

namespace WordAutomata

namespace Finite

variable {S : Type u} {rules more : List (Rule S)}

theorem Path.append {s t r : S} {v w : List Char} (h₁ : Path rules s v t)
    (h₂ : Path rules t w r) : Path rules s (v ++ w) r := by
  induction h₁ with
  | refl _ => exact h₂
  | free hr _ ih => exact .free hr (ih h₂)
  | read hr _ ih => exact .read hr (ih h₂)

/-- A path is still one when there are more rules. -/
theorem Path.mono (hsub : ∀ r ∈ rules, r ∈ more) {s t : S} {w : List Char}
    (h : Path rules s w t) : Path more s w t := by
  induction h with
  | refl s => exact .refl s
  | free hr _ ih => exact .free (hsub _ hr) ih
  | read hr _ ih => exact .read (hsub _ hr) ih

/-- A path only reads characters that rules have. -/
theorem Path.exists_rule {s t : S} {w : List Char} (h : Path rules s w t) :
    ∀ c ∈ w, ∃ r ∈ rules, r.symbol = .character c := by
  induction h with
  | refl _ =>
      intro c hc
      exact absurd hc List.not_mem_nil
  | free _ _ ih => exact ih
  | read hr _ ih =>
      intro c hc
      rcases List.mem_cons.1 hc with rfl | hc
      · exact ⟨_, hr, rfl⟩
      · exact ih c hc

/-- The first character is read by one rule, before which and after which the
    path goes on. -/
theorem path_cons_iff {s t : S} {c : Char} {w : List Char} :
    Path rules s (c :: w) t ↔
      ∃ p q, Path rules s [] p ∧ ⟨p, .character c, q⟩ ∈ rules ∧ Path rules q w t := by
  constructor
  · intro h
    generalize hv : c :: w = v at h
    -- Epsilon rules in front belong to what comes before the character.
    induction h with
    | refl _ => exact absurd hv (List.cons_ne_nil c w)
    | free hr _ ih =>
        rcases ih hv with ⟨p, q, hp, hpq, hq⟩
        exact ⟨p, q, .free hr hp, hpq, hq⟩
    | read hr hrest _ =>
        rcases List.cons.inj hv with ⟨rfl, rfl⟩
        exact ⟨_, _, .refl _, hr, hrest⟩
  · rintro ⟨p, q, hp, hpq, hq⟩
    exact hp.append (.read hpq hq)

end Finite

namespace Nfa

namespace Rulebook

variable {S : Type u} [Ordered S] {b : Rulebook S}

theorem leads_freeMoves {s t : S} : b.freeMoves.Leads s t ↔ ⟨s, .epsilon, t⟩ ∈ b.rules := by
  simp only [Graph.Leads, Graph.successors, freeMoves, List.filterMap_some, mem_targets]

/-- Going along epsilon rules is a path that reads nothing. -/
theorem reflTransGen_freeMoves_iff {s t : S} :
    Relation.ReflTransGen b.freeMoves.Leads s t ↔ Finite.Path b.rules s [] t := by
  constructor
  · intro h
    induction h with
    | refl => exact .refl s
    | tail _ hbc ih => exact ih.append (.free (leads_freeMoves.1 hbc) (.refl _))
  · intro h
    -- The induction is over paths for any word, so the word gets a name.
    generalize hw : ([] : List Char) = w at h
    induction h with
    | refl _ => exact .refl
    | free hr _ ih => exact .head (leads_freeMoves.2 hr) (ih hw)
    | read _ _ _ => exact absurd hw.symm (List.cons_ne_nil _ _)

/-- A closure holds what paths reach that read nothing. -/
theorem mem_closure {X : SortedSet S} {t : S} :
    t ∈ b.closure X ↔ ∃ s, s ∈ X ∧ Finite.Path b.rules s [] t := by
  have hwalk : t ∈ (b.freeWalk X.toList).discovered.toList ↔ b.freeMoves.Reachable X.toList t :=
    Graph.mem_discovered_explore
  rw [closure, SortedSet.mem_ofList, hwalk]
  simp only [Graph.Reachable, reflTransGen_freeMoves_iff, SortedSet.mem_def]

theorem closure_closure {X : SortedSet S} : b.closure (b.closure X) = b.closure X := by
  apply SortedSet.ext_mem
  intro t
  rw [mem_closure]
  constructor
  · rintro ⟨s, hs, ht⟩
    rcases mem_closure.1 hs with ⟨r, hr, hrs⟩
    exact mem_closure.2 ⟨r, hr, hrs.append ht⟩
  · intro ht
    exact ⟨t, ht, .refl t⟩

theorem closure_next {X : SortedSet S} {c : Char} : b.closure (b.next X c) = b.next X c :=
  closure_closure

/-- Reading a word from a closure leads to what paths for the word reach. -/
theorem mem_foldl_next {X : SortedSet S} {w : List Char} {t : S} :
    t ∈ w.foldl b.next (b.closure X) ↔ ∃ s, s ∈ X ∧ Finite.Path b.rules s w t := by
  induction w generalizing X with
  | nil => exact mem_closure
  | cons c w ih =>
      -- One round of the run is the first character of a path.
      rw [List.foldl_cons, next, ih]
      simp only [mem_step, mem_closure, Finite.path_cons_iff]
      constructor
      · rintro ⟨q, ⟨p, ⟨s, hs, hsp⟩, hpq⟩, ht⟩
        exact ⟨s, hs, p, q, hsp, hpq, ht⟩
      · rintro ⟨s, hs, p, q, hsp, hpq, ht⟩
        exact ⟨q, ⟨p, ⟨s, hs, hsp⟩, hpq⟩, ht⟩

end Rulebook

variable {S : Type u} [Ordered S] [Describe S] {a : Nfa S}

/-- The states of a run from the start after a word. -/
theorem states_run {log : Log} {w : List Char} :
    ((a.run log).readWord w).states = w.foldl a.rulebook.next a.startSet :=
  Run.states_readWord

/-- Whether a word is accepted does not depend on the log that is kept. -/
theorem judge_fst {log : Log} {w : List Char} :
    (a.judge w log).1 = a.isAccepting (w.foldl a.rulebook.next a.startSet) := by
  have hrun : (a.judge w log).1 = ((a.run log).readWord w).automaton.isAccepting
      ((a.run log).readWord w).states := rfl
  rw [hrun, states_run, Run.automaton_readWord]
  rfl

theorem accepts_eq {w : List Char} :
    a.accepts w = a.isAccepting (w.foldl a.rulebook.next a.startSet) :=
  judge_fst

/-- A word is accepted exactly if a path for it leads from the start state to an
    accept state. -/
theorem accepts_iff {w : List Char} :
    a.accepts w = true ↔ ∃ t, t ∈ a.accepting ∧ Finite.Path a.rulebook.rules a.start w t := by
  rw [accepts_eq, isAccepting, SortedSet.intersects_iff]
  simp only [startSet, Rulebook.mem_foldl_next, SortedSet.mem_singleton, exists_eq_left]
  constructor
  · rintro ⟨t, ht, hacc⟩
    exact ⟨t, hacc, ht⟩
  · rintro ⟨t, hacc, ht⟩
    exact ⟨t, ht, hacc⟩

end Nfa

end WordAutomata
