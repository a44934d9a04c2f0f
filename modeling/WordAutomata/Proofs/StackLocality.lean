import WordAutomata.Pushdown.Rule
import WordAutomata.SortedSet.Lemmas
import Mathlib.Data.List.Basic
import Mathlib.Logic.Relation
import Mathlib.Order.WellFounded

/-!
# Stack Locality

A rule looks at the top of the stack only. What lies below the symbols that a
run of rules takes away could as well be something else, or nothing at all, and
the same rules would still lead from the same state to the same state.

Both guards against endless epsilon runs rest on this. Suppose that some rules
lead from a configuration back to its state and its top, and that the stack is
never shorter in between than at the start. Then they only need the one symbol
on top, and what they leave behind is that symbol again, with whatever they have
piled up below it. So they can be taken again, and again, each time with a taller
pile.

`atop` puts symbols below a stack, `Above` is a run that stays at or above some
height, and `Repeats` is what such a run comes down to: epsilon rules that lead
from one symbol to the same symbol over a pile.

## Main definitions

* `Configuration.atop`: A configuration with more symbols below its stack.
* `Configuration.bare`: The configuration of a state and a single symbol.
* `Configuration.At`: A configuration with a given state and top.
* `Pushdown.FreelyReaches`: Epsilon rules lead to another configuration.
* `Pushdown.Above`: They do, and no rule is taken below a height.
* `Pushdown.Repeats`: They lead from a symbol to the same symbol over a pile.
* `Pushdown.Endless`: Epsilon rules can be taken forever.

## Theorems

* `Pushdown.step_atop_iff`: A rule does not see what lies below the top.
* `Pushdown.Above.split`: Nor does a run that stays above it.
* `Pushdown.repeats_of_above`: Coming back to a state and a top without having
  gone below is a repetition.
* `Pushdown.Repeats.endless`: A repetition goes on forever.
* `Pushdown.Repeats.exists_taller`: With a pile, it exceeds every height.
-/

universe u

namespace WordAutomata

variable {S : Type u}

namespace Configuration

theorem ext_symbols {c d : Configuration S} (hstate : c.state? = d.state?)
    (hsymbols : c.stack.symbols = d.stack.symbols) : c = d := by
  cases c
  cases d
  simp only [Configuration.mk.injEq]
  exact ⟨hstate, Stack.eq_of_symbols_eq hsymbols⟩

/-- A configuration is in one of some states if it has a state, and that is one of them. -/
theorem isIn_iff [Ordered S] {c : Configuration S} {states : SortedSet S} :
    c.isIn states = true ↔ ∃ s ∈ states, c.state? = some s := by
  rcases c with ⟨state?, stack⟩
  cases state? with
  | none => simp [isIn]
  | some s => simp [isIn, SortedSet.contains_iff]

/-- The configuration with more symbols below those on its stack. -/
def atop (c : Configuration S) (below : List Char) : Configuration S :=
  ⟨c.state?, .ofList (c.stack.symbols ++ below)⟩

@[simp]
theorem state?_atop (c : Configuration S) (below : List Char) :
    (c.atop below).state? = c.state? := rfl

@[simp]
theorem symbols_atop (c : Configuration S) (below : List Char) :
    (c.atop below).stack.symbols = c.stack.symbols ++ below := rfl

@[simp]
theorem height_atop (c : Configuration S) (below : List Char) :
    (c.atop below).stack.height = c.stack.height + below.length := by
  rw [Stack.height_eq, symbols_atop, List.length_append, c.stack.height_eq]

/-- Anything on top of what lies below makes the stack taller than that. -/
theorem taller_iff {c : Configuration S} {below : List Char} :
    below.length + 1 ≤ (c.atop below).stack.height ↔ c.stack.symbols ≠ [] := by
  rw [height_atop, c.stack.height_eq, ← List.length_pos_iff]
  omega

theorem top?_atop {c : Configuration S} (hc : c.stack.symbols ≠ []) (below : List Char) :
    (c.atop below).stack.top? = c.stack.top? := by
  unfold Stack.top?
  rw [symbols_atop, List.head?_append_of_ne_nil _ hc]

@[simp]
theorem atop_atop (c : Configuration S) (v w : List Char) : (c.atop v).atop w = c.atop (v ++ w) :=
  ext_symbols rfl (by simp)

/-- The configuration of a state and a single symbol on the stack. -/
def bare (k : S × Char) : Configuration S := .of k.1 (.ofList [k.2])

@[simp]
theorem state?_bare (k : S × Char) : (bare k).state? = some k.1 := rfl

@[simp]
theorem symbols_bare (k : S × Char) : (bare k).stack.symbols = [k.2] := rfl

@[simp]
theorem height_bare (k : S × Char) : (bare k).stack.height = 1 := rfl

/-- The configuration has the given state and the given top. -/
def At (c : Configuration S) (k : S × Char) : Prop :=
  c.state? = some k.1 ∧ c.stack.top? = some k.2

theorem At.unique {c : Configuration S} {k l : S × Char} (hk : c.At k) (hl : c.At l) : k = l := by
  have hstate := hk.1.symm.trans hl.1
  have htop := hk.2.symm.trans hl.2
  rw [Option.some.injEq] at hstate htop
  exact Prod.ext hstate htop

/-- A state and a top are all there is to a configuration but for what lies below. -/
theorem At.exists_atop {c : Configuration S} {k : S × Char} (h : c.At k) :
    ∃ below, c = (bare k).atop below := by
  rcases h with ⟨hstate, htop⟩
  rw [Stack.top?, List.head?_eq_some_iff] at htop
  rcases htop with ⟨below, hbelow⟩
  exact ⟨below, ext_symbols hstate hbelow⟩

end Configuration

namespace Pushdown

open WordAutomata.Configuration

variable [Ordered S] {rules : List (Rule S)} {symbol : Symbol} {c d e : Configuration S}

/-! ## One rule -/

theorem Rule.applies_iff {r : Rule S} :
    r.applies c symbol = true ↔ c.At (r.source, r.popped) ∧ r.symbol = symbol := by
  simp only [Rule.applies, At, Bool.and_eq_true, decide_eq_true_eq]

/-- A rule that applies finds a symbol that it can pop. -/
theorem Rule.symbols_ne_nil {r : Rule S} (h : r.applies c symbol = true) :
    c.stack.symbols ≠ [] := by
  intro hc
  have htop := (Rule.applies_iff.1 h).1.2
  rw [Stack.top?, hc] at htop
  cases htop

theorem Rule.applies_atop {r : Rule S} {below : List Char} (hc : c.stack.symbols ≠ []) :
    r.applies (c.atop below) symbol = r.applies c symbol := by
  unfold Rule.applies
  rw [state?_atop, top?_atop hc]

omit [Ordered S] in
theorem Rule.follow_atop {r : Rule S} {below : List Char} (hc : c.stack.symbols ≠ []) :
    r.follow (c.atop below) = (r.follow c).atop below := by
  refine ext_symbols rfl ?_
  show r.pushed ++ (c.stack.symbols ++ below).tail = (r.pushed ++ c.stack.symbols.tail) ++ below
  rw [List.tail_append_of_ne_nil hc, List.append_assoc]

/-- What a rule does does not depend on what lies below the top. -/
theorem step_atop_iff {below : List Char} (hc : c.stack.symbols ≠ []) :
    Step rules symbol (c.atop below) d ↔ ∃ d', d = d'.atop below ∧ Step rules symbol c d' := by
  constructor
  · rintro ⟨r, hr, happ, rfl⟩
    rw [Rule.applies_atop hc] at happ
    exact ⟨r.follow c, Rule.follow_atop hc, r, hr, happ, rfl⟩
  · rintro ⟨d', rfl, r, hr, happ, rfl⟩
    refine ⟨r, hr, ?_, (Rule.follow_atop hc).symm⟩
    rw [Rule.applies_atop hc, happ]

theorem Step.symbols_ne_nil (h : Step rules symbol c d) : c.stack.symbols ≠ [] := by
  rcases h with ⟨r, _, happ, _⟩
  exact Rule.symbols_ne_nil happ

theorem Step.atop (h : Step rules symbol c d) (below : List Char) :
    Step rules symbol (c.atop below) (d.atop below) :=
  (step_atop_iff h.symbols_ne_nil).2 ⟨d, rfl, h⟩

/-! ## Runs of epsilon rules -/

/-- Epsilon rules, in any number, lead from one configuration to the other. -/
abbrev FreelyReaches (rules : List (Rule S)) : Configuration S → Configuration S → Prop :=
  Relation.ReflTransGen (Step rules .epsilon)

/-- Epsilon rules lead from one configuration to the other, and none of them is
    taken while the stack is lower than the height. -/
def Above (rules : List (Rule S)) (height : Nat) : Configuration S → Configuration S → Prop :=
  Relation.ReflTransGen fun c d => height ≤ c.stack.height ∧ Step rules .epsilon c d

theorem Above.lower {height height' : Nat} (h : Above rules height c d) (hle : height' ≤ height) :
    Above rules height' c d :=
  Relation.ReflTransGen.mono (fun _ _ hstep => ⟨Nat.le_trans hle hstep.1, hstep.2⟩) _ _ h

/-- A run that never takes the last symbol above some others away leaves those as
    they are, and does not need them. -/
theorem Above.split {below : List Char} (h : Above rules (below.length + 1) (c.atop below) d) :
    ∃ d', d = d'.atop below ∧ FreelyReaches rules c d' := by
  induction h with
  | refl => exact ⟨c, rfl, .refl⟩
  | tail _ hstep ih =>
      rcases ih with ⟨m, rfl, hm⟩
      -- The stack is taller than what lies below, so the rule does not see that.
      have hne := taller_iff.1 hstep.1
      rcases (step_atop_iff hne).1 hstep.2 with ⟨d', rfl, hd'⟩
      exact ⟨d', rfl, hm.tail hd'⟩

/-! ## Repetitions -/

/-- Epsilon rules, at least one, lead from a state with a single symbol on the
    stack to the same state with the same symbol, over a pile. -/
def Repeats (rules : List (Rule S)) (k : S × Char) (pile : List Char) : Prop :=
  Relation.TransGen (Step rules .epsilon) (bare k) ((bare k).atop pile)

/-- Coming back to a state and a top, without having taken a rule below the
    height of the start, is a repetition. Its pile is what the stack has grown by. -/
theorem repeats_of_above {c' : Configuration S} {k : S × Char} (hc : c.At k) (hd : d.At k)
    (hstep : Step rules .epsilon c c') (habove : Above rules c.stack.height c' d)
    (hle : c.stack.height ≤ d.stack.height) :
    ∃ pile, Repeats rules k pile ∧ d.stack.height = c.stack.height + pile.length := by
  rcases hc.exists_atop with ⟨below, rfl⟩
  rcases hd.exists_atop with ⟨below', rfl⟩
  rcases (step_atop_iff (by simp)).1 hstep with ⟨m, rfl, hm⟩
  rw [height_atop, height_bare, Nat.add_comm] at habove
  rcases habove.split with ⟨d', hd', hreach⟩
  -- Both sides have the same symbols, of which those below are the last ones.
  have hsymbols : k.2 :: below' = d'.stack.symbols ++ below :=
    congrArg (fun e => e.stack.symbols) hd'
  simp only [height_atop, height_bare] at hle ⊢
  rcases List.cons_eq_append_iff.1 hsymbols with ⟨_, hbelow⟩ | ⟨pile, hpile, rfl⟩
  · have hlength := congrArg List.length hbelow
    rw [List.length_cons] at hlength
    omega
  · have hback : d' = (bare k).atop pile :=
      ext_symbols (congrArg Configuration.state? hd').symm hpile
    -- Without what lies below, this is a way from the symbol alone.
    refine ⟨pile, ?_, ?_⟩
    · rw [Repeats, ← hback]
      exact Relation.TransGen.head' hm hreach
    · rw [List.length_append]
      omega

/-- A repetition can be taken over anything. -/
theorem Repeats.atop {k : S × Char} {pile : List Char} (h : Repeats rules k pile)
    (below : List Char) : Relation.TransGen (Step rules .epsilon) ((bare k).atop below)
      ((bare k).atop (pile ++ below)) := by
  rw [← atop_atop]
  exact h.lift (fun c => c.atop below) fun _ _ hstep => hstep.atop below

/-- Epsilon rules can be taken forever. -/
def Endless (rules : List (Rule S)) (c : Configuration S) : Prop :=
  ∃ run : Nat → Configuration S, run 0 = c ∧ ∀ n, Step rules .epsilon (run n) (run (n + 1))

theorem endless_iff_not_acc :
    Endless rules c ↔ ¬ Acc (fun e d => Step rules .epsilon d e) c := by
  rw [not_acc_iff_exists_descending_chain]
  rfl

theorem Endless.head (hstep : Step rules .epsilon c d) (h : Endless rules d) : Endless rules c := by
  rw [endless_iff_not_acc] at h ⊢
  intro hacc
  exact h (hacc.inv hstep)

/-- A repetition goes on forever. -/
theorem Repeats.endless {k : S × Char} {pile : List Char} (h : Repeats rules k pile)
    (hc : c.At k) : Endless rules c := by
  rw [endless_iff_not_acc]
  intro hacc
  -- No configuration from which all runs end has this state and top, by induction
  -- on that, one repetition at a time.
  have hnot : ∀ e, Acc (Relation.TransGen fun e d => Step rules .epsilon d e) e →
      ∀ below, e ≠ (bare k).atop below := by
    intro e he
    induction he with
    | intro e _ ih =>
        rintro below rfl
        exact ih _ (Relation.transGen_swap.2 (h.atop below)) (pile ++ below) rfl
  rcases hc.exists_atop with ⟨below, rfl⟩
  exact hnot _ hacc.transGen below rfl

/-- A repetition with a pile leads to stacks of any height. -/
theorem Repeats.exists_taller {k : S × Char} {pile : List Char} (h : Repeats rules k pile)
    (hpile : pile ≠ []) (hc : c.At k) (height : Nat) :
    ∃ d, FreelyReaches rules c d ∧ height < d.stack.height := by
  rcases hc.exists_atop with ⟨below, rfl⟩
  have hpos := List.length_pos_iff.2 hpile
  have hpiled : ∃ w : List Char, FreelyReaches rules ((bare k).atop below) ((bare k).atop w) ∧
      height ≤ w.length := by
    induction height with
    | zero => exact ⟨below, .refl, Nat.zero_le _⟩
    | succ height ih =>
        rcases ih with ⟨w, hw, hle⟩
        refine ⟨pile ++ w, hw.trans (h.atop w).to_reflTransGen, ?_⟩
        rw [List.length_append]
        omega
  rcases hpiled with ⟨w, hw, hle⟩
  refine ⟨_, hw, ?_⟩
  rw [height_atop, height_bare]
  omega

end Pushdown

end WordAutomata
