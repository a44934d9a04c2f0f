import WordAutomata.Proofs.ClosureBound
import Mathlib

/-!
# What a Truncated Closure Lacks

A closure follows epsilon rules as long as stacks stay within its limit. So it
holds what can be reached within the limit, which is `Within`, and it holds
nothing else. A configuration that is left out is too tall, or every way to it
leads over one that is.

The second kind is real, and height alone does not tell it. A stack may have to
grow far above the limit before it can be taken down to some short
configuration. `unevenRules` is such a case. The stack grows one symbol at a
time and may be taken down only from an even height. While it is taken down the
state counts the symbols in fives. To come back to the bottom mark with the count
at zero, the number of symbols must be even and a multiple of five, so the height
has to be eleven. There are nine keys, and each rule adds at most one symbol, so
the limit is ten. Such detours grow with the product of the two counters, and
the limit only with their sum.

## Main definitions

* `Pushdown.Within`: Epsilon rules lead on, and no stack exceeds a limit.
* `Npda.row`: A configuration with a stack of equal symbols.
* `Npda.unevenRules`: Rules that need more height than a closure allows for.

## Theorems

* `Npda.Rulebook.mem_closure_iff_within`: A closure is what is reached within its
  limit.
* `Npda.Rulebook.closureNoting_within`: What is left out lies beyond something
  too tall, and is warned of.
* `Npda.uneven_of_within`: How heights and states go together within the limit.
* `Npda.closure_lacks_short`: A short configuration that a closure lacks.
-/

universe u

namespace WordAutomata

open Pushdown

namespace Pushdown

variable {S : Type u} [Ordered S] {rules : List (Rule S)} {limit : Nat} {c d : Configuration S}

/-- Epsilon rules lead from one configuration to the other, and none of them
    leads to a stack that is taller than the limit. -/
def Within (rules : List (Rule S)) (limit : Nat) : Configuration S → Configuration S → Prop :=
  Relation.ReflTransGen fun c d => Step rules .epsilon c d ∧ d.stack.height ≤ limit

theorem Within.freelyReaches (h : Within rules limit c d) : FreelyReaches rules c d :=
  Relation.ReflTransGen.mono (fun _ _ hstep => hstep.1) _ _ h

/-- What is reached is reached within the limit, or over something too tall. -/
theorem within_or_over (h : FreelyReaches rules c d) :
    Within rules limit c d ∨
      ∃ e, FreelyReaches rules c e ∧ limit < e.stack.height ∧ FreelyReaches rules e d := by
  induction h with
  | refl => exact .inl .refl
  | @tail m d _ hstep ih =>
      rcases ih with hm | ⟨e, hce, htall, hem⟩
      · by_cases hle : d.stack.height ≤ limit
        · exact .inl (hm.tail ⟨hstep, hle⟩)
        · have htall : limit < d.stack.height := by omega
          exact .inr ⟨d, hm.freelyReaches.tail hstep, htall, .refl⟩
      · exact .inr ⟨e, hce, htall, hem.tail hstep⟩

end Pushdown

namespace Npda

namespace Rulebook

variable {S : Type u} [Ordered S] {b : Rulebook S} {cs : SortedSet (Configuration S)}
  {d : Configuration S}

/-- A closure holds what epsilon rules reach within its limit. -/
theorem mem_closure_iff_within :
    d ∈ (b.closure cs).configurations ↔ ∃ c ∈ cs, Within b.rules (b.heightLimit cs) c d := by
  have hleads : (b.freeMoves (b.heightLimit cs)).Leads =
      fun c d => Step b.rules .epsilon c d ∧ d.stack.height ≤ b.heightLimit cs := by
    funext c d
    exact propext leads_freeMoves
  rw [mem_closure_iff, Graph.Reachable, hleads]
  rfl

/-- A closure, truncated or not, holds exactly what epsilon rules reach within its
    limit. What they reach and it lacks, they reach only over stacks that exceed
    the limit. If it lacks something, then the only record is a warning, which is made
    if warnings are kept. If it lacks nothing, nothing is recorded. -/
theorem closureNoting_within (b : Rulebook S) (cs : SortedSet (Configuration S)) (log : Log) :
    (∀ d, d ∈ (b.closureNoting cs log).1 ↔ ∃ c ∈ cs, Within b.rules (b.heightLimit cs) c d) ∧
    (∀ c ∈ cs, ∀ d, FreelyReaches b.rules c d → ¬ d ∈ (b.closureNoting cs log).1 →
      ∃ e, FreelyReaches b.rules c e ∧ b.heightLimit cs < e.stack.height ∧
        FreelyReaches b.rules e d) ∧
    ((∃ d ∈ freeClosure b.rules cs, ¬ d ∈ (b.closureNoting cs log).1) →
      ∀ level, (b.closureNoting cs log).2.recordsOf level = log.recordsOf level ++
        if level = .warn ∧ log.keeps .warn = true then
          [⟨.warn, truncationText (b.heightLimit cs)⟩] else []) ∧
    ((∀ d ∈ freeClosure b.rules cs, d ∈ (b.closureNoting cs log).1) →
      (b.closureNoting cs log).2 = log) := by
  have hset : (b.closureNoting cs log).1 = (b.closure cs).configurations := rfl
  have hlog : (b.closureNoting cs log).2 = noteClosure (b.closure cs) log := rfl
  have hlimit : (b.closure cs).limit = b.heightLimit cs := rfl
  rw [hset, hlog]
  refine ⟨fun d => mem_closure_iff_within, fun c hc d hreach hnot => ?_, ?_, fun hall => ?_⟩
  · apply (within_or_over hreach).resolve_left
    intro hwithin
    exact hnot (mem_closure_iff_within.2 ⟨c, hc, hwithin⟩)
  · rintro ⟨d, hd, hnot⟩ level
    have htruncated := (mem_closure_or_truncated hd).resolve_left hnot
    rw [recordsOf_noteClosure, hlimit]
    simp only [htruncated, true_and]
  · have hcomplete : ¬ (b.closure cs).truncated = true := by
      rw [truncated_iff]
      rintro ⟨d, hd, htall⟩
      have hle := height_le_of_mem_closure (hall d hd)
      omega
    rw [noteClosure, if_neg hcomplete]

end Rulebook

/-! ## A short configuration that is left out -/

/-- The configuration of a state and a stack of equal symbols on a bottom mark. -/
def row (state height : Nat) : Configuration Nat :=
  .of state (.ofList (List.replicate height 'x' ++ ['$']))

/-- The rule that takes a symbol away and puts some number of them back. -/
def rowRule (source target count : Nat) : Rule Nat :=
  ⟨source, .epsilon, target, 'x', List.replicate count 'x'⟩

/-- The rule that puts some number of symbols on the bottom mark. -/
def markRule (source target count : Nat) : Rule Nat :=
  ⟨source, .epsilon, target, '$', List.replicate count 'x' ++ ['$']⟩

/-- Rules that let a stack grow by one symbol at a time, with its parity as the
    state, and take it down from an even height, counting in fives. The state of
    a count is two more than the count. If the count is zero at the bottom mark,
    they end in state seven. -/
def unevenRules : List (Rule Nat) :=
  [markRule 0 1 1, rowRule 0 1 2, rowRule 1 0 2, rowRule 0 3 0, rowRule 2 3 0, rowRule 3 4 0,
    rowRule 4 5 0, rowRule 5 6 0, rowRule 6 2 0, markRule 2 7 0]

/-- The automaton of these rules, which accepts in state seven. -/
def uneven : Npda Nat := ⟨0, '$', .singleton 7, .ofRules unevenRules⟩

theorem row_eq_iff {s t m n : Nat} : row s m = row t n ↔ s = t ∧ m = n := by
  constructor
  · intro h
    have hstate := congrArg Configuration.state? h
    have hheight := congrArg (fun c => c.stack.height) h
    simp only [row, Configuration.of, Stack.ofList, List.length_append, List.length_replicate,
      Option.some.injEq, Nat.add_right_cancel_iff] at hstate hheight
    exact ⟨hstate, hheight⟩
  · rintro ⟨rfl, rfl⟩
    rfl

theorem rowRule_inj {s t k s' t' k' : Nat} :
    rowRule s t k = rowRule s' t' k' ↔ s = s' ∧ t = t' ∧ k = k' := by
  simp [rowRule, List.replicate_inj]

theorem markRule_inj {s t k s' t' k' : Nat} :
    markRule s t k = markRule s' t' k' ↔ s = s' ∧ t = t' ∧ k = k' := by
  simp [markRule, List.replicate_inj]

theorem rowRule_ne_markRule {s t k s' t' k' : Nat} : rowRule s t k ≠ markRule s' t' k' := by
  simp [rowRule, markRule]

theorem height_row (s n : Nat) : (row s n).stack.height = n + 1 := by
  show (List.replicate n 'x' ++ ['$']).length = n + 1
  rw [List.length_append, List.length_replicate, List.length_singleton]

theorem follow_rowRule (s t k n u : Nat) :
    (rowRule s t k).follow (row u (n + 1)) = row t (k + n) := by
  refine Configuration.ext_symbols rfl ?_
  show List.replicate k 'x' ++ (List.replicate (n + 1) 'x' ++ ['$']).tail =
    List.replicate (k + n) 'x' ++ ['$']
  rw [List.replicate_succ, List.cons_append, List.tail_cons, ← List.append_assoc,
    List.replicate_append_replicate]

theorem follow_markRule (s t k u : Nat) : (markRule s t k).follow (row u 0) = row t k :=
  Configuration.ext_symbols rfl (List.append_nil _)

theorem applies_rowRule {s t k u n : Nat} :
    (rowRule s t k).applies (row u n) .epsilon = true ↔ u = s ∧ 0 < n := by
  rw [Rule.applies_iff]
  cases n with
  | zero => simp [Configuration.At, row, rowRule, Configuration.of, Stack.ofList, Stack.top?]
  | succ n =>
      simp [Configuration.At, row, rowRule, Configuration.of, Stack.ofList, Stack.top?,
        List.replicate_succ]

theorem applies_markRule {s t k u n : Nat} :
    (markRule s t k).applies (row u n) .epsilon = true ↔ u = s ∧ n = 0 := by
  rw [Rule.applies_iff]
  cases n with
  | zero => simp [Configuration.At, row, markRule, Configuration.of, Stack.ofList, Stack.top?]
  | succ n =>
      simp [Configuration.At, row, markRule, Configuration.of, Stack.ofList, Stack.top?,
        List.replicate_succ]

/-! ### The way over a tall stack -/

theorem step_row {s t k n : Nat} (h : rowRule s t k ∈ unevenRules) :
    Step unevenRules .epsilon (row s (n + 1)) (row t (k + n)) := by
  refine ⟨rowRule s t k, h, applies_rowRule.2 ⟨rfl, Nat.succ_pos n⟩, ?_⟩
  rw [follow_rowRule]

theorem step_mark {s t k : Nat} (h : markRule s t k ∈ unevenRules) :
    Step unevenRules .epsilon (row s 0) (row t k) := by
  refine ⟨markRule s t k, h, applies_markRule.2 ⟨rfl, rfl⟩, ?_⟩
  rw [follow_markRule]

/-- The stack grows to any height, and the state is its parity. -/
theorem grows_row (n : Nat) : FreelyReaches unevenRules (row 0 0) (row ((n + 1) % 2) (n + 1)) := by
  induction n with
  | zero =>
      have hstep : Step unevenRules .epsilon (row 0 0) (row 1 1) :=
        step_mark (by simp [unevenRules])
      exact .single hstep
  | succ n ih =>
      have hrule : rowRule ((n + 1) % 2) ((n + 2) % 2) 2 ∈ unevenRules := by
        rcases Nat.mod_two_eq_zero_or_one n with h | h
        · have hthis : (n + 1) % 2 = 1 := by omega
          have hnext : (n + 2) % 2 = 0 := by omega
          rw [hthis, hnext]
          simp [unevenRules]
        · have hthis : (n + 1) % 2 = 0 := by omega
          have hnext : (n + 2) % 2 = 1 := by omega
          rw [hthis, hnext]
          simp [unevenRules]
      have hstep := step_row (n := n) hrule
      rw [Nat.add_comm 2 n] at hstep
      exact ih.tail hstep

/-- The stack is taken down to the mark, and the state counts in fives. -/
theorem shrinks_row (i n : Nat) :
    FreelyReaches unevenRules (row (2 + i % 5) n) (row (2 + (i + n) % 5) 0) := by
  induction n generalizing i with
  | zero => exact .refl
  | succ n ih =>
      have hrule : rowRule (2 + i % 5) (2 + (i + 1) % 5) 0 ∈ unevenRules := by
        have hlt : i % 5 < 5 := Nat.mod_lt i (by omega)
        have hnext : (i + 1) % 5 = (i % 5 + 1) % 5 := by omega
        rw [hnext]
        generalize i % 5 = j at hlt
        match j, hlt with
        | 0, _ | 1, _ | 2, _ | 3, _ | 4, _ => simp [unevenRules]
      have hstep := step_row (n := n) hrule
      rw [Nat.zero_add] at hstep
      have hrest := ih (i + 1)
      rw [Nat.add_right_comm i 1 n] at hrest
      exact hrest.head hstep

/-- Ten symbols are even in number and a multiple of five. -/
theorem reaches_row_seven : FreelyReaches unevenRules (row 0 0) (row 7 0) := by
  have hturn : Step unevenRules .epsilon (row 0 10) (row 3 9) :=
    step_row (n := 9) (s := 0) (t := 3) (k := 0) (by simp [unevenRules])
  have hend : Step unevenRules .epsilon (row 2 0) (row 7 0) := step_mark (by simp [unevenRules])
  have hshrink := shrinks_row 1 9
  exact (((grows_row 9).tail hturn).trans hshrink).tail hend

/-! ### What is reached within the limit -/

/-- A step from a row takes a symbol away, or stands on the bottom mark. -/
theorem step_row_cases {s n : Nat} {d : Configuration Nat}
    (h : Step unevenRules .epsilon (row s n) d) :
    (∃ m t k, n = m + 1 ∧ d = row t (k + m) ∧ rowRule s t k ∈ unevenRules) ∨
      ∃ t k, n = 0 ∧ d = row t k ∧ markRule s t k ∈ unevenRules := by
  rcases h with ⟨r, hr, happ, rfl⟩
  -- Each rule pops a symbol or the bottom mark, whatever the state.
  have hform : (∃ a t k, r = rowRule a t k) ∨ ∃ a t k, r = markRule a t k := by
    simp only [unevenRules, List.mem_cons, List.not_mem_nil, or_false] at hr
    rcases hr with rfl | rfl | rfl | rfl | rfl | rfl | rfl | rfl | rfl | rfl
    · exact .inr ⟨0, 1, 1, rfl⟩
    iterate 8 exact .inl ⟨_, _, _, rfl⟩
    · exact .inr ⟨2, 7, 0, rfl⟩
  rcases hform with ⟨a, t, k, rfl⟩ | ⟨a, t, k, rfl⟩
  · rcases applies_rowRule.1 happ with ⟨rfl, hpos⟩
    rcases Nat.exists_eq_succ_of_ne_zero (Nat.ne_of_gt hpos) with ⟨m, rfl⟩
    exact .inl ⟨m, t, k, rfl, follow_rowRule _ t k m _, hr⟩
  · rcases applies_markRule.1 happ with ⟨rfl, rfl⟩
    exact .inr ⟨t, k, rfl, follow_markRule _ t k _, hr⟩

/-- A rule for symbols lets the stack grow, or begins to take it down, or goes on
    with that. -/
theorem rowRule_cases {s t k : Nat} (h : rowRule s t k ∈ unevenRules) :
    (k = 2 ∧ s < 2 ∧ t + s = 1) ∨ (k = 0 ∧ s = 0 ∧ t = 3) ∨
      (k = 0 ∧ 2 ≤ s ∧ t = 2 + (s - 2 + 1) % 5) := by
  simp only [unevenRules, List.mem_cons, rowRule_inj, rowRule_ne_markRule, List.not_mem_nil,
    or_false, false_or] at h
  omega

theorem markRule_cases {s t k : Nat} (h : markRule s t k ∈ unevenRules) :
    (s = 0 ∧ t = 1 ∧ k = 1) ∨ (s = 2 ∧ t = 7 ∧ k = 0) := by
  simp only [unevenRules, List.mem_cons, markRule_inj, rowRule_ne_markRule.symm, List.not_mem_nil,
    or_false, false_or] at h
  omega

/-- What is known of a row that is reached with nine symbols at most. While the
    stack grows, the state is the parity of their number. While it is taken down,
    the state counts what is missing from some even number. -/
def Uneven (s n : Nat) : Prop :=
  n ≤ 9 ∧
    (s < 2 ∧ (s + n) % 2 = 0 ∨ ∃ top, n < top ∧ top ≤ 9 ∧ top % 2 = 0 ∧ s = 2 + (top - n) % 5)

theorem Uneven.row_step {s t k m : Nat} (h : Uneven s (m + 1))
    (hrule : rowRule s t k ∈ unevenRules) (hle : k + m ≤ 9) : Uneven t (k + m) := by
  refine ⟨hle, ?_⟩
  rcases h with ⟨hheight, hcase⟩
  rcases rowRule_cases hrule with ⟨rfl, hs, ht⟩ | ⟨rfl, rfl, rfl⟩ | ⟨rfl, hs, rfl⟩
  · -- Growing, the state changes with the parity.
    rcases hcase with ⟨_, hparity⟩ | ⟨top, _, _, _, rfl⟩
    · left
      omega
    · omega
  · -- The number from which the stack begins to be taken down is even.
    rcases hcase with ⟨_, hparity⟩ | ⟨top, _, _, _, hstate⟩
    · right
      refine ⟨m + 1, ?_, hheight, ?_, ?_⟩ <;> omega
    · omega
  · rcases hcase with ⟨hlt, _⟩ | ⟨top, hlow, htop, heven, rfl⟩
    · omega
    · right
      refine ⟨top, ?_, htop, heven, ?_⟩ <;> omega

/-- At the mark the count is not zero: no even number up to nine is a multiple of
    five. -/
theorem Uneven.mark_step {s t k : Nat} (h : Uneven s 0) (hrule : markRule s t k ∈ unevenRules) :
    Uneven t k := by
  rcases h with ⟨_, hcase⟩
  rcases markRule_cases hrule with ⟨rfl, rfl, rfl⟩ | ⟨rfl, rfl, rfl⟩
  · exact ⟨by omega, .inl ⟨by omega, rfl⟩⟩
  · rcases hcase with ⟨hlt, _⟩ | ⟨top, hpos, htop, heven, hcount⟩ <;> omega

/-- Up to height ten, all that is reached keeps to that. -/
theorem uneven_of_within {c : Configuration Nat} (h : Within unevenRules 10 (row 0 0) c) :
    ∃ s n, c = row s n ∧ Uneven s n := by
  induction h with
  | refl => exact ⟨0, 0, rfl, by omega, .inl ⟨by omega, rfl⟩⟩
  | tail _ hstep ih =>
      rcases ih with ⟨s, n, rfl, huneven⟩
      rcases step_row_cases hstep.1 with ⟨m, t, k, rfl, rfl, hrule⟩ | ⟨t, k, rfl, rfl, hrule⟩
      · -- With the bottom mark, height ten leaves nine symbols.
        have hle := hstep.2
        rw [height_row] at hle
        exact ⟨t, k + m, rfl, huneven.row_step hrule (by omega)⟩
      · exact ⟨t, k, rfl, huneven.mark_step hrule⟩

theorem heightLimit_uneven :
    uneven.rulebook.heightLimit (.singleton uneven.startConfiguration) = 10 := by
  cbv

theorem state_lt_of_mem_closure {c : Configuration Nat}
    (h : c ∈ (uneven.rulebook.closure (.singleton uneven.startConfiguration)).configurations) :
    ∃ s n, c = row s n ∧ s < 7 := by
  rw [Rulebook.mem_closure_iff_within, heightLimit_uneven] at h
  rcases h with ⟨e, he, hwithin⟩
  rw [SortedSet.mem_singleton] at he
  subst he
  rcases uneven_of_within hwithin with ⟨s, n, rfl, _, hcase⟩
  refine ⟨s, n, rfl, ?_⟩
  rcases hcase with ⟨hlt, _⟩ | ⟨top, _, _, _, rfl⟩ <;> omega

/-- The bottom mark in state seven is reached, over a stack of height eleven. -/
theorem row_seven_mem_freeClosure :
    row 7 0 ∈ freeClosure uneven.rulebook.rules (.singleton uneven.startConfiguration) :=
  ⟨row 0 0, SortedSet.mem_singleton.2 rfl, reaches_row_seven⟩

/-- No row in the closure is in state seven. -/
theorem row_seven_not_mem_closure (n : Nat) :
    ¬ row 7 n ∈
      (uneven.rulebook.closure (.singleton uneven.startConfiguration)).configurations := by
  intro hmem
  rcases state_lt_of_mem_closure hmem with ⟨s, m, hrow, hlt⟩
  rcases row_eq_iff.1 hrow with ⟨rfl, rfl⟩
  omega

/-- Height alone does not tell what a truncated closure lacks. The bottom mark in
    state seven is reached, but only over a stack of height eleven, and the limit
    is ten. So the closure lacks it, and the automaton rejects the empty word
    although epsilon rules lead to its accept state. -/
theorem closure_lacks_short :
    ∃ d ∈ freeClosure uneven.rulebook.rules (.singleton uneven.startConfiguration),
      d.stack.height ≤ uneven.rulebook.heightLimit (.singleton uneven.startConfiguration) ∧
      ¬ d ∈ (uneven.rulebook.closure (.singleton uneven.startConfiguration)).configurations ∧
      (∃ t ∈ uneven.accepting, d.state? = some t) ∧ uneven.accepts [] = false := by
  refine ⟨row 7 0, row_seven_mem_freeClosure, ?_, row_seven_not_mem_closure 0,
    ⟨7, SortedSet.mem_singleton.2 rfl, rfl⟩, ?_⟩
  · rw [heightLimit_uneven, height_row]
    omega
  · have hrun : uneven.accepts [] = uneven.isAccepting
        (uneven.rulebook.closure (.singleton uneven.startConfiguration)).configurations := rfl
    rw [hrun, isAccepting, List.any_eq_false]
    intro c hc haccepts
    rcases state_lt_of_mem_closure hc with ⟨s, n, rfl, hlt⟩
    have hseven : s ∈ SortedSet.singleton 7 := SortedSet.contains_iff.1 haccepts
    rw [SortedSet.mem_singleton] at hseven
    omega

/-- There is one warning of what this closure lacks, and it names the limit. -/
theorem closureNoting_within_uneven :
    (∃ e, FreelyReaches uneven.rulebook.rules uneven.startConfiguration e ∧ 10 < e.stack.height ∧
      FreelyReaches uneven.rulebook.rules e (row 7 0)) ∧
    (uneven.rulebook.closureNoting (.singleton uneven.startConfiguration)
      (.empty (some .warn))).2.recordsOf .warn = [⟨.warn, truncationText 10⟩] := by
  rcases Rulebook.closureNoting_within uneven.rulebook (.singleton uneven.startConfiguration)
    (.empty (some .warn)) with ⟨_, hover, hwarn, _⟩
  constructor
  · rw [← heightLimit_uneven]
    exact hover _ (SortedSet.mem_singleton.2 rfl) _ reaches_row_seven (row_seven_not_mem_closure 0)
  · rw [hwarn ⟨row 7 0, row_seven_mem_freeClosure, row_seven_not_mem_closure 0⟩ .warn,
      heightLimit_uneven]
    rfl

end Npda

end WordAutomata
