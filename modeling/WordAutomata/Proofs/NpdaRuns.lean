import WordAutomata.Proofs.TruncatedClosures

/-!
# Nondeterministic Pushdown Runs

A run moves a set of configurations for each character, and closes it again.
Every configuration that it holds is reached by rules while the word is read. The
converse fails if closures had to be truncated, so acceptance tells of rules in
one direction only.

What a closure cannot lose is what lies beyond no repetition: if epsilon rules
reach no pile from a configuration, then all that they reach from it stays within
the limit, however tall the stacks get that are reached from others.

## Main definitions

* `Npda.Rulebook.advance`: The configurations after one more character.

## Theorems

* `Npda.Run.configurations_readWord`: A run is a fold over the word.
* `Npda.Rulebook.reaches_of_mem_foldl`: A run holds only what rules reach.
* `Npda.Rulebook.mem_closure_of_not_grows`: A closure keeps all that is reached
  from where no stack grows forever.
-/

universe u

namespace WordAutomata

open Pushdown

variable {S : Type u} [Ordered S]

namespace Pushdown

variable {rules : List (Rule S)} {c d e : Configuration S} {w : List Char}

theorem FreelyReaches.trans_reaches (h : FreelyReaches rules c d) (hrest : Reaches rules d w e) :
    Reaches rules c w e := by
  induction h using Relation.ReflTransGen.head_induction_on with
  | refl => exact hrest
  | head hstep _ ih => exact .free hstep ih

end Pushdown

namespace Npda

namespace Rulebook

variable {b : Rulebook S} {cs : SortedSet (Configuration S)} {c d : Configuration S}

theorem mem_step {symbol : Symbol} :
    d ∈ b.step cs symbol ↔ ∃ c ∈ cs, Step b.rules symbol c d := by
  rw [step, SortedSet.mem_ofList, List.mem_flatMap]
  simp only [mem_successors]
  rfl

/-- The configurations after one more character, closed again. -/
def advance (b : Rulebook S) (cs : SortedSet (Configuration S)) (x : Char) :
    SortedSet (Configuration S) :=
  (b.closure (b.step cs (.character x))).configurations

/-- What a run holds is reached by rules from what it held before. -/
theorem reaches_of_mem_foldl {w : List Char} (h : d ∈ w.foldl b.advance cs) :
    ∃ c ∈ cs, Reaches b.rules c w d := by
  induction w generalizing cs with
  | nil => exact ⟨d, h, .refl d⟩
  | cons x w ih =>
      rcases ih h with ⟨e, he, hrest⟩
      -- Back through the closure, and then through the rule that read the character.
      rcases mem_freeClosure_of_mem_closure he with ⟨m, hm, hfree⟩
      rcases mem_step.1 hm with ⟨c, hc, hstep⟩
      exact ⟨c, hc, .read hstep (hfree.trans_reaches hrest)⟩

/-- A closure keeps all that is reached from where no stack grows forever. -/
theorem mem_closure_of_not_grows (hc : c ∈ cs) (hgrows : ¬ Grows b.rules c)
    (h : FreelyReaches b.rules c d) : d ∈ (b.closure cs).configurations := by
  rw [mem_closure_iff_within]
  refine ⟨c, hc, (within_or_over h).resolve_right ?_⟩
  -- Without a pile no stack exceeds what the limit allows for one configuration.
  rintro ⟨e, hreach, htall, _⟩
  have hle := height_le_of_not_grows hgrows hreach
  have hlimit := b.height_add_growth_le hc
  omega

end Rulebook

variable [Describe S] {a : Npda S}

namespace Run

theorem automaton_readWord {run : Run S} {w : List Char} :
    (run.readWord w).automaton = run.automaton := by
  induction w generalizing run with
  | nil => rfl
  | cons x w ih => exact ih

/-- A run is a fold over the word. -/
theorem configurations_readWord {run : Run S} {w : List Char} :
    (run.readWord w).configurations =
      w.foldl run.automaton.rulebook.advance run.configurations := by
  induction w generalizing run with
  | nil => rfl
  | cons x w ih => exact ih

end Run

/-- A word is accepted exactly if the run ends with some configuration in an accept
    state. -/
theorem accepts_iff {w : List Char} : a.accepts w = true ↔
    ∃ d ∈ w.foldl a.rulebook.advance
      (a.rulebook.closure (.singleton a.startConfiguration)).configurations,
      d.isIn a.accepting = true := by
  have hrun : a.accepts w = ((a.run .silent).readWord w).automaton.isAccepting
      ((a.run .silent).readWord w).configurations := rfl
  rw [hrun, Run.automaton_readWord, Run.configurations_readWord, isAccepting, List.any_eq_true]
  rfl

/-- What is accepted is accepted for a reason: rules lead to an accept state. -/
theorem reaches_of_accepts {w : List Char} (h : a.accepts w = true) :
    ∃ d, Reaches a.rulebook.rules a.startConfiguration w d ∧ d.isIn a.accepting = true := by
  rcases accepts_iff.1 h with ⟨d, hd, haccepts⟩
  rcases Rulebook.reaches_of_mem_foldl hd with ⟨c, hc, hrest⟩
  rcases Rulebook.mem_freeClosure_of_mem_closure hc with ⟨s, hs, hfree⟩
  rw [SortedSet.mem_singleton] at hs
  subst hs
  exact ⟨d, hfree.trans_reaches hrest, haccepts⟩

end Npda

end WordAutomata
