import WordAutomata.Proofs.StackLocality

/-!
# Rules Over Exchanged Stacks

A row of rules is taken one after the other, each for its own symbol. Suppose that before
each of them the stack is taller than some part at its bottom. Then no rule has seen that
part, and the same rules can be taken over anything else in its place. They pass through
the same states and the same tops, and leave the same symbols on top of what lies below.

The last rule may take away the last symbol above the part, since it is only before a rule
that the stack has to be taller. After it the top is that of the part, and so the top at
the end is not among those that stay the same.

If the row leads back to its first state and its first top, then what it leaves is the
symbol that it started with, over a pile. So it can be taken once more, over that pile, and
again, and each time the stack grows by the pile. This is what lets the guards of both
kinds of pushdown automata call a run endless that they have only seen once around.

## Main definitions

* `Configuration.seen`: What a rule looks at.
* `Pushdown.Takes`: The rules of a row can be taken one after the other.
* `Pushdown.passed`, `Pushdown.arrived`: The configurations before each rule, and the last.

## Theorems

* `Pushdown.Takes.atop`: A row of rules can be taken with more symbols below.
* `Pushdown.takes_of_atop`: And without those that it never reaches.
* `Pushdown.takes_replicate`: A row that leads back can be repeated.
* `Pushdown.takes_over_any_stack`: The stack below a row of rules can be exchanged.
-/

universe u

namespace WordAutomata

variable {S : Type u}

namespace Configuration

/-- What a rule looks at: the state and the top of the stack. -/
def seen (c : Configuration S) : Option S × Option Char := (c.state?, c.stack.top?)

theorem seen_atop {c : Configuration S} (hc : c.stack.symbols ≠ []) (below : List Char) :
    (c.atop below).seen = c.seen := by
  unfold seen
  rw [state?_atop, top?_atop hc]

theorem eq_of_atop_eq {c : Configuration S} {t : S} {left below : List Char}
    (h : c.atop below = .of t (.ofList (left ++ below))) : c = .of t (.ofList left) := by
  have hstate : c.state? = some t := congrArg state? h
  have hsymbols : c.stack.symbols ++ below = left ++ below := congrArg (fun e => e.stack.symbols) h
  exact ext_symbols hstate (List.append_cancel_right hsymbols)

end Configuration

namespace Pushdown

open WordAutomata.Configuration

/-! ## Rows of rules -/

/-- The configurations before each rule of a row. -/
def passed : Configuration S → List (Rule S) → List (Configuration S)
  | _, [] => []
  | c, r :: row => c :: passed (r.follow c) row

/-- The configuration behind the last rule of a row. -/
def arrived : Configuration S → List (Rule S) → Configuration S
  | c, [] => c
  | c, r :: row => arrived (r.follow c) row

/-- Rules lead from a state to a state, and never to a configuration that is stuck. -/
theorem exists_arrived_eq_of (row : List (Rule S)) (s : S) (stack : Stack) :
    ∃ t left, arrived (.of s stack) row = .of t left := by
  induction row generalizing s stack with
  | nil => exact ⟨s, stack, rfl⟩
  | cons r row ih => exact ih r.target (stack.pop.pushAll r.pushed)

variable [Ordered S] {c : Configuration S} {row more : List (Rule S)}

/-- The rules of a row can be taken one after the other, each for its symbol. -/
def Takes : Configuration S → List (Rule S) → Prop
  | _, [] => True
  | c, r :: row => r.applies c r.symbol = true ∧ Takes (r.follow c) row

instance decidableTakes : (c : Configuration S) → (row : List (Rule S)) → Decidable (Takes c row)
  | _, [] => .isTrue trivial
  | c, r :: row =>
    have := decidableTakes (r.follow c) row
    inferInstanceAs (Decidable (_ ∧ _))

theorem takes_append : Takes c (row ++ more) ↔ Takes c row ∧ Takes (arrived c row) more := by
  induction row generalizing c with
  | nil => simp only [List.nil_append, Takes, arrived, true_and]
  | cons r row ih =>
      simp only [List.cons_append, Takes, arrived, ih, and_assoc]

omit [Ordered S] in
theorem arrived_append : arrived c (row ++ more) = arrived (arrived c row) more := by
  induction row generalizing c with
  | nil => rfl
  | cons r row ih => exact ih

theorem symbols_ne_nil_of_mem_passed (h : Takes c row) :
    ∀ m ∈ passed c row, m.stack.symbols ≠ [] := by
  induction row generalizing c with
  | nil => exact fun m hm => absurd hm List.not_mem_nil
  | cons r row ih =>
      exact List.forall_mem_cons.2 ⟨Rule.symbols_ne_nil h.1, ih h.2⟩

/-! ## More and fewer symbols below -/

/-- More symbols below change nothing but what lies below. -/
theorem Takes.atop (h : Takes c row) (below : List Char) :
    Takes (c.atop below) row ∧
      passed (c.atop below) row = (passed c row).map (fun m => m.atop below) ∧
      arrived (c.atop below) row = (arrived c row).atop below := by
  induction row generalizing c with
  | nil => exact ⟨trivial, rfl, rfl⟩
  | cons r row ih =>
      have hne := Rule.symbols_ne_nil h.1
      rcases ih h.2 with ⟨htakes, hpassed, harrived⟩
      unfold Takes passed arrived
      rw [Rule.applies_atop hne, Rule.follow_atop hne, hpassed]
      exact ⟨⟨h.1, htakes⟩, rfl, harrived⟩

/-- What a row of rules never reaches can be taken away. -/
theorem takes_of_atop {below : List Char} (h : Takes (c.atop below) row)
    (habove : ∀ m ∈ passed (c.atop below) row, below.length + 1 ≤ m.stack.height) :
    Takes c row := by
  induction row generalizing c with
  | nil => trivial
  | cons r row ih =>
      unfold Takes at h
      unfold passed at habove
      rw [List.forall_mem_cons] at habove
      -- The stack is taller than what lies below, so the rule does not see that.
      have hne := taller_iff.1 habove.1
      rw [Rule.applies_atop hne, Rule.follow_atop hne] at h
      rw [Rule.follow_atop hne] at habove
      exact ⟨h.1, ih h.2 habove.2⟩

/-- A row of rules sees the same whatever lies below. -/
theorem Takes.seen_passed (h : Takes c row) (below : List Char) :
    (passed (c.atop below) row).map seen = (passed c row).map seen := by
  rw [(h.atop below).2.1, List.map_map]
  refine List.map_congr_left fun m hm => ?_
  exact seen_atop (symbols_ne_nil_of_mem_passed h m hm) below

/-- What lies below is never reached. -/
theorem Takes.above (h : Takes c row) (below : List Char) :
    ∀ m ∈ passed (c.atop below) row, below.length + 1 ≤ m.stack.height := by
  intro m hm
  rw [(h.atop below).2.1] at hm
  rcases List.mem_map.1 hm with ⟨n, hn, rfl⟩
  exact taller_iff.2 (symbols_ne_nil_of_mem_passed h n hn)

/-! ## Repeated rows -/

/-- A row that leads from a symbol to the same symbol over a pile can be repeated, and
    leaves one pile for each time. -/
theorem takes_replicate {k : S × Char} {pile : List Char} (h : Takes (bare k) row)
    (hback : arrived (bare k) row = (bare k).atop pile) (n : Nat) (below : List Char) :
    Takes ((bare k).atop below) (List.replicate n row).flatten ∧
      arrived ((bare k).atop below) (List.replicate n row).flatten =
        (bare k).atop ((List.replicate n pile).flatten ++ below) := by
  induction n generalizing below with
  | zero => exact ⟨trivial, rfl⟩
  | succ n ih =>
      rcases h.atop below with ⟨htakes, _, harrived⟩
      rw [hback, atop_atop] at harrived
      -- The pile of the first time lies below all the others.
      rcases ih (pile ++ below) with ⟨hrest, hend⟩
      rw [List.replicate_succ, List.flatten_cons, takes_append, arrived_append, harrived, hend,
        List.replicate_succ', List.flatten_concat, List.append_assoc]
      exact ⟨⟨htakes, hrest⟩, rfl⟩

/-- If before each rule of a row the stack is taller than what lies below its first top,
    then that still lies below at the end. With any other stack in its place the row can be
    taken as well. It passes through the same states and tops, never reaches what lies
    below, and leaves the same symbols above it. If these begin with the first top and the
    state is the first one again, then the row can be repeated, and each time the stack
    grows by one less than the number of these symbols. -/
theorem takes_over_any_stack (row : List (Rule S)) (q : S) (x : Char) (below : List Char)
    (htakes : Takes (.of q (.ofList (x :: below))) row)
    (habove : ∀ m ∈ passed (.of q (.ofList (x :: below))) row,
      below.length + 1 ≤ m.stack.height) :
    (∃ q' left, arrived (.of q (.ofList (x :: below))) row = .of q' (.ofList (left ++ below))) ∧
    ∀ q' left, arrived (.of q (.ofList (x :: below))) row = .of q' (.ofList (left ++ below)) →
      (∀ other,
        Takes (.of q (.ofList (x :: other))) row ∧
        (passed (.of q (.ofList (x :: other))) row).map seen =
          (passed (.of q (.ofList (x :: below))) row).map seen ∧
        (∀ m ∈ passed (.of q (.ofList (x :: other))) row, other.length + 1 ≤ m.stack.height) ∧
        arrived (.of q (.ofList (x :: other))) row = .of q' (.ofList (left ++ other))) ∧
      (q' = q → left.head? = some x → ∀ other n,
        Takes (.of q (.ofList (x :: other))) (List.replicate n row).flatten ∧
        arrived (.of q (.ofList (x :: other))) (List.replicate n row).flatten =
          .of q (.ofList (x :: (List.replicate n left.tail).flatten ++ other)) ∧
        (arrived (.of q (.ofList (x :: other))) (List.replicate n row).flatten).stack.height =
          (other.length + 1) + n * (left.length - 1)) := by
  -- The symbol alone is enough for the row, and what lies below is put under it.
  have hatop : ∀ w, Configuration.of q (.ofList (x :: w)) = (bare (q, x)).atop w := fun _ => rfl
  rw [hatop] at htakes habove
  have hbare := takes_of_atop htakes habove
  simp only [hatop, List.cons_append, (hbare.atop _).2.2]
  refine ⟨?_, fun q' left hend => ?_⟩
  · rcases exists_arrived_eq_of row q (.ofList [x]) with ⟨q', left, hend⟩
    exact ⟨q', left.symbols, congrArg (fun c => c.atop below) hend⟩
  · have hleft := eq_of_atop_eq hend
    refine ⟨fun other => ⟨(hbare.atop other).1, ?_, hbare.above other, ?_⟩,
      fun hq hx other n => ?_⟩
    · rw [hbare.seen_passed, hbare.seen_passed]
    · exact congrArg (fun c => c.atop other) hleft
    · subst hq
      rcases List.head?_eq_some_iff.1 hx with ⟨pile, rfl⟩
      rcases takes_replicate hbare hleft n other with ⟨hrepeated, harrived⟩
      refine ⟨hrepeated, harrived, ?_⟩
      have hpiles : (List.replicate n pile).flatten.length = n * pile.length := by
        rw [List.length_flatten, List.map_replicate, List.sum_replicate_nat]
      rw [harrived, height_atop, height_bare, List.length_append, hpiles, List.length_cons,
        Nat.add_sub_cancel]
      omega

/-- Two rules that come back to their first state and top, and leave one more symbol below.
    The second one pops what the first one has put on top. -/
def roundTrip : List (Rule Nat) :=
  [⟨0, 'a', 1, 'x', ['y', 'x', 'z']⟩, ⟨1, .epsilon, 0, 'y', []⟩]

/-- A rule that takes away the only symbol above what lies below. -/
def downward : List (Rule Nat) := [⟨0, .epsilon, 1, 'x', []⟩]

/-- Tried over one symbol, the rules that come back can be taken over any stack, three times
    and more. The rule that takes its symbol away leaves any stack as it was, and with it any
    top. -/
theorem takes_over_any_stack_roundTrip :
    Takes (.of 0 (.ofList ['x', '$'])) roundTrip ∧
    (∀ m ∈ passed (.of 0 (.ofList ['x', '$'])) roundTrip, 2 ≤ m.stack.height) ∧
    (∀ other, arrived (.of 0 (.ofList ('x' :: other))) (List.replicate 3 roundTrip).flatten =
      .of 0 (.ofList ('x' :: 'z' :: 'z' :: 'z' :: other))) ∧
    (∀ other n, (arrived (.of 0 (.ofList ('x' :: other)))
      (List.replicate n roundTrip).flatten).stack.height = other.length + 1 + n) ∧
    ∀ other, arrived (.of 0 (.ofList ('x' :: other))) downward = .of 1 (.ofList other) := by
  have htakes : Takes (.of 0 (.ofList ['x', '$'])) roundTrip := by decide
  have habove : ∀ m ∈ passed (.of 0 (.ofList ['x', '$'])) roundTrip, 2 ≤ m.stack.height := by
    decide
  rcases takes_over_any_stack roundTrip 0 'x' ['$'] htakes habove with ⟨_, hends⟩
  rcases hends 0 ['x', 'z'] rfl with ⟨_, hrepeats⟩
  rcases takes_over_any_stack downward 0 'x' ['$'] (by decide) (by decide) with ⟨_, hdown⟩
  rcases hdown 1 [] rfl with ⟨hother, _⟩
  refine ⟨htakes, habove, fun other => ?_, fun other n => ?_, fun other => ?_⟩
  · exact (hrepeats rfl rfl other 3).2.1
  · rw [(hrepeats rfl rfl other n).2.2]
    simp only [List.length_cons, List.length_nil, Nat.zero_add, Nat.add_one_sub_one, Nat.mul_one]
  · exact (hother other).2.2.2

end Pushdown

end WordAutomata
