import WordAutomata.Pushdown.Rule
import WordAutomata.Catalogue
import WordAutomata.Exploration
import WordAutomata.SortedSet.Lemmas

/-!
# Nondeterministic Pushdown Automata

A rulebook moves a set of configurations, like that of a finite automaton.
But the epsilon closure of a set may be infinite, since epsilon rules can let
the stack grow.

`freeGrowth` bounds the growth in a finite closure. A chain of epsilon rules
that raises the stack further must take rules with the same key, which is
source and popped character, at two heights, without going below the first in
between, and can then be repeated forever. So a closure leaves out
configurations that are taller than the tallest given one by more than that,
and says whether there were any.

## Main definitions

* `Npda.Rulebook`: Rules with a search tree by their sources.
* `Npda.Rulebook.rulesFor`, `successors`: The rules that apply, and where they
  lead.
* `Npda.Rulebook.step`: The configurations reached from a set for one symbol.
* `Npda.Closure`: An epsilon closure up to some height.
* `Npda.Rulebook.closure`: The closure of a set.
* `Npda`: A rulebook with a start state, a bottom character and accept states.

## Theorems

* `Npda.Rulebook.rulesFor_eq`: Looking up finds what a scan of the rules finds.
* `Npda.Rulebook.confines_freeMoves`: There are finitely many configurations
  that are not too tall.
-/

universe u

namespace WordAutomata

namespace Npda

variable {S : Type u} [Ordered S]

/-- How much taller than at the start a stack can get in a finite epsilon
    closure: the number of keys of epsilon rules, times the most by which one
    of them raises the stack. The product is a number of any size here. It is not cut
    off where a machine word ends. -/
def freeGrowth (rules : List (Pushdown.Rule S)) : Nat :=
  let free := rules.filter fun r => r.symbol.isEpsilon
  let keys : SortedSet (S × Char) := .ofList (free.map fun r => (r.source, r.popped))
  keys.size * free.foldr (fun r n => max (r.pushed.length - 1) n) 0

/-- Rules of a nondeterministic pushdown automaton, with a search tree by their
    sources. -/
structure Rulebook (S : Type u) [Ordered S] where
  /-- The rules, in the order in which they were given. -/
  rules : List (Pushdown.Rule S)
  /-- For each source its rules, in the same order. -/
  outgoing : Std.TreeMap S (List (Pushdown.Rule S))
  /-- How much taller a stack can get in a finite epsilon closure. -/
  growth : Nat
  outgoing_eq : outgoing = Catalogue.grouped Pushdown.Rule.source rules
  growth_eq : growth = freeGrowth rules

/-- The words over some characters that have at most a given length. -/
def shortWords (pool : List Char) : Nat → List (List Char)
  | 0 => [[]]
  | n + 1 => [] :: pool.flatMap fun c => (shortWords pool n).map (c :: ·)

theorem mem_shortWords {pool : List Char} {n : Nat} {word : List Char} (hn : word.length ≤ n)
    (hp : ∀ c ∈ word, c ∈ pool) : word ∈ shortWords pool n := by
  induction n generalizing word with
  | zero =>
    obtain rfl := List.eq_nil_of_length_eq_zero (Nat.le_zero.1 hn)
    simp [shortWords]
  | succ n ih =>
    cases word with
    | nil => simp [shortWords]
    | cons c word =>
      simp only [List.length_cons, Nat.add_le_add_iff_right] at hn
      refine List.mem_cons_of_mem _ (List.mem_flatMap.2 ⟨c, hp c List.mem_cons_self, ?_⟩)
      exact List.mem_map.2 ⟨word, ih hn fun d hd => hp d (List.mem_cons_of_mem c hd), rfl⟩

/-- An epsilon closure, from which configurations that are too tall are left
    out. -/
structure Closure (S : Type u) [Ordered S] where
  configurations : SortedSet (Configuration S)
  /-- The height up to which configurations are kept. -/
  limit : Nat
  /-- Whether any configuration was left out. -/
  truncated : Bool

namespace Rulebook

/-- The rulebook of a list of rules. -/
def ofRules (rules : List (Pushdown.Rule S)) : Rulebook S := ⟨rules, _, _, rfl, rfl⟩

/-- The rules that apply to a configuration for a symbol, in order. -/
def rulesFor (b : Rulebook S) (c : Configuration S) (symbol : Symbol) :
    List (Pushdown.Rule S) :=
  match c.state? with
  | none => []
  | some state => (b.outgoing.getD state []).filter fun r => r.applies c symbol

theorem rulesFor_eq (b : Rulebook S) (c : Configuration S) (symbol : Symbol) :
    b.rulesFor c symbol = b.rules.filter fun r => r.applies c symbol := by
  unfold rulesFor
  split
  · rename_i hc
    exact (List.filter_eq_nil_iff.2 fun r _ => by simp [Pushdown.Rule.applies, hc]).symm
  · rename_i state hc
    rw [b.outgoing_eq, Catalogue.getD_grouped, List.filter_filter]
    refine List.filter_congr fun r _ => ?_
    simp only [Pushdown.Rule.applies, hc, Option.some.injEq]
    rw [Bool.eq_iff_iff]
    simp only [Bool.and_eq_true, decide_eq_true_eq]
    grind

theorem mem_rulesFor {b : Rulebook S} {c : Configuration S} {symbol : Symbol}
    {r : Pushdown.Rule S} :
    r ∈ b.rulesFor c symbol ↔ r ∈ b.rules ∧ r.applies c symbol = true := by
  rw [rulesFor_eq, List.mem_filter]

/-- The configurations to which these rules lead, in order and with
    repetitions. -/
def successors (b : Rulebook S) (c : Configuration S) (symbol : Symbol) :
    List (Configuration S) :=
  (b.rulesFor c symbol).map fun r => r.follow c

theorem mem_successors {b : Rulebook S} {c d : Configuration S} {symbol : Symbol} :
    d ∈ b.successors c symbol ↔ Pushdown.Step b.rules symbol c d := by
  simp only [successors, List.mem_map, mem_rulesFor, Pushdown.Step]
  constructor
  · rintro ⟨r, ⟨hr, happ⟩, rfl⟩
    exact ⟨r, hr, happ, rfl⟩
  · rintro ⟨r, hr, happ, rfl⟩
    exact ⟨r, ⟨hr, happ⟩, rfl⟩

/-- The configurations reached from any of the given ones by a rule for the
    symbol. -/
def step (b : Rulebook S) (configurations : SortedSet (Configuration S)) (symbol : Symbol) :
    SortedSet (Configuration S) :=
  .ofList (configurations.toList.flatMap fun c => b.successors c symbol)

/-- The graph of the epsilon rules between configurations up to some height. -/
def freeMoves (b : Rulebook S) (limit : Nat) : Graph (Configuration S) (Configuration S) where
  edges c := b.successors c .epsilon
  target? d := if d.stack.height ≤ limit then some d else none

/-- The characters that can turn up on a stack: those on the given stacks, and
    those that rules push. -/
def pool (b : Rulebook S) (seeds : List (Configuration S)) : List Char :=
  seeds.flatMap (fun c => c.stack.symbols) ++ b.rules.flatMap Pushdown.Rule.pushed

/-- The configurations that a closure can hold: those given, and those not too
    tall whose state and symbols can turn up. -/
def Reachable (b : Rulebook S) (limit : Nat) (seeds : List (Configuration S))
    (c : Configuration S) : Prop :=
  c ∈ seeds ∨ (c.stack.height ≤ limit ∧ (∀ x ∈ c.stack.symbols, x ∈ b.pool seeds) ∧
    ∃ s ∈ b.rules.map Pushdown.Rule.target, c.state? = some s)

theorem confines_freeMoves (b : Rulebook S) (limit : Nat) (seeds : List (Configuration S)) :
    (b.freeMoves limit).Confines (b.Reachable limit seeds) where
  closed c hc d hd := by
    simp only [Graph.successors, freeMoves, List.mem_filterMap] at hd
    obtain ⟨e, he, hlimit⟩ := hd
    split at hlimit
    · rename_i hle
      obtain rfl := Option.some.inj hlimit
      obtain ⟨r, hr, -, rfl⟩ := mem_successors.1 he
      -- A symbol of the new stack was pushed just now or was there before.
      refine .inr ⟨hle, fun x hx => ?_, r.target, List.mem_map.2 ⟨r, hr, rfl⟩, rfl⟩
      rcases List.mem_append.1 hx with hx | hx
      · exact List.mem_append_right _ (List.mem_flatMap.2 ⟨r, hr, hx⟩)
      · have hx := List.mem_of_mem_tail hx
        rcases hc with hc | ⟨-, hc, -⟩
        · exact List.mem_append_left _ (List.mem_flatMap.2 ⟨c, hc, hx⟩)
        · exact hc x hx
    · cases hlimit
  finite := by
    refine ⟨seeds ++ (b.rules.map Pushdown.Rule.target).flatMap fun s =>
      (shortWords (b.pool seeds) limit).map fun word => .of s (.ofList word), ?_⟩
    rintro c (hc | ⟨hle, hpool, s, hs, hstate⟩)
    · exact List.mem_append_left _ hc
    · refine List.mem_append_right _ (List.mem_flatMap.2 ⟨s, hs, List.mem_map.2 ?_⟩)
      rw [c.stack.height_eq] at hle
      refine ⟨c.stack.symbols, mem_shortWords hle hpool, ?_⟩
      obtain ⟨state, stack⟩ := c
      obtain rfl : state = some s := hstate
      exact congrArg _ (Stack.eq_of_symbols_eq rfl)

/-- The height of the tallest configuration of a set, and what epsilon rules can
    add to it in a finite closure. The sum, like the growth, has no upper bound. -/
def heightLimit (b : Rulebook S) (configurations : SortedSet (Configuration S)) : Nat :=
  configurations.toList.foldr (fun c n => max c.stack.height n) 0 + b.growth

/-- The walk through the epsilon rules from some configurations. -/
def freeWalk (b : Rulebook S) (limit : Nat) (seeds : List (Configuration S)) :
    Exploration (Configuration S) (Configuration S) :=
  (b.freeMoves limit).explore _ (b.confines_freeMoves limit seeds) seeds fun _ h => .inl h

/-- All configurations reached by epsilon rules alone, the given ones included,
    as far as they are not too tall. -/
def closure (b : Rulebook S) (configurations : SortedSet (Configuration S)) : Closure S :=
  let limit := b.heightLimit configurations
  let walk := b.freeWalk limit configurations.toList
  { configurations := .ofList walk.discovered.toList
    limit
    truncated := walk.visits.any fun v => v.edges.any fun d => limit < d.stack.height }

end Rulebook

end Npda

/-- A nondeterministic pushdown automaton. -/
structure Npda (S : Type u) [Ordered S] where
  /-- The state in which every run starts. -/
  start : S
  /-- The only character on the stack at the start. -/
  bottom : Char
  /-- The states in which a run accepts. -/
  accepting : SortedSet S
  rulebook : Npda.Rulebook S

namespace Npda

variable {S : Type u} [Ordered S]

/-- The configuration in which every run starts. -/
def startConfiguration (a : Npda S) : Configuration S := .of a.start (.ofList [a.bottom])

/-- Whether the state of one of the configurations is an accept state. -/
def isAccepting (a : Npda S) (configurations : SortedSet (Configuration S)) : Bool :=
  configurations.toList.any fun c => c.isIn a.accepting

end Npda

end WordAutomata
