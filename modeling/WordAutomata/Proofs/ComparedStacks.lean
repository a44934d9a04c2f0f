import WordAutomata.Npda.Basic
import WordAutomata.Proofs.Renumbering
import Mathlib.Data.List.Lex
import Mathlib.Order.Defs.Unbundled

/-!
# Stacks Compared

Three things tell stacks apart. Their heights are kept beside the symbols, and a test for
equality looks at the heights first. An order that knows nothing of heights compares the
symbols from the top. Sets sort and look up by the order, and a closure under epsilon
rules is a set that was collected by equality alone. If the two ever disagreed, a closure
would lose configurations or hold some of them twice, and only where stacks of different
heights meet.

They do not disagree, since each of them is told by the symbols. A history of operations
gives the symbols that it is meant to give, and the height counts them. Stacks are equal if
their symbols are, and these are in the order of words, in which a word that ends first is
smaller. The states of configurations are compared by an order that agrees with equality,
so configurations are compared by such an order too.

Sorting a list of configurations and dropping the later ones of equals then leaves the same
configurations, each of them once. All that following epsilon rules comes upon is kept in
this way, and what a closure returns are these configurations in their order.

## Main definitions

* `Stack.Operation`: What can be done to have a stack.
* `Stack.built`, `Stack.meant`: The stack of a history, and the symbols it should have.
* `Stack.Precedes`, `Configuration.Precedes`: The order of words, and of configurations.
* `Stack.equalSharing`: Equality that first looks whether nodes are shared.
* `Npda.Rulebook.encountered`: What following epsilon rules comes upon.

## Theorems

* `Stack.symbols_built`: A history gives the symbols that it is meant to give.
* `Stack.compare_eq_lt_iff`: Stacks are in the order of their symbols as words.
* `Configuration.compare_eq_lt_iff`: Configurations are in order of state and stack.
* `SortedSet.toList_ofList_perm`: Sorting keeps one of equals, as a test for equality does.
* `Npda.Rulebook.perm_encountered`: A closure has what the walk encounters, each once.
* `Configuration.order_agrees_with_equality`: All of this together.
-/

universe u

namespace WordAutomata

namespace Stack

/-! ## Symbols of a history -/

/-- What can be done to have a stack. -/
inductive Operation where
  | new (symbols : List Char)
  | push (symbol : Char)
  | pop

/-- The stack that comes of an operation. -/
def Operation.result (s : Stack) : Operation → Stack
  | new symbols => .ofList symbols
  | push symbol => s.push symbol
  | pop => s.pop

/-- The symbols that come of an operation, the top first. -/
def Operation.meaning (symbols : List Char) : Operation → List Char
  | new symbols => symbols
  | push symbol => symbol :: symbols
  | pop => symbols.tail

/-- The stack that a history builds. At first it is empty. -/
def built (history : List Operation) : Stack := history.foldl Operation.result .empty

/-- The symbols that the same history is meant to build. -/
def meant (history : List Operation) : List Char := history.foldl Operation.meaning []

/-- A new stack is what pushing its symbols gives, the last one first. -/
theorem ofList_eq_foldr (symbols : List Char) :
    ofList symbols = symbols.foldr (fun c s => s.push c) empty := by
  rw [← pushAll_eq_foldr]
  exact eq_of_symbols_eq (List.append_nil symbols).symm

theorem symbols_result (s : Stack) (op : Operation) :
    (op.result s).symbols = op.meaning s.symbols := by
  cases op with
  | new symbols => rfl
  | push symbol => rfl
  | pop => rfl

theorem symbols_built (history : List Operation) : (built history).symbols = meant history :=
  -- Both folds go through the history, and the symbols stay the same after each operation.
  (List.foldl_hom symbols fun s op => (symbols_result s op).symm).symm

theorem height_built (history : List Operation) :
    (built history).height = (meant history).length := by
  rw [height_eq, symbols_built]

/-! ## Equality and order -/

variable {s t : Stack}

/-- The order of words: the first symbols that differ decide by their code points, and a
    word that ends before it differs is smaller. -/
def Precedes : List Char → List Char → Prop := List.Lex fun x y => x.toNat < y.toNat

theorem precedes_of_prefix {l m : List Char} (h : l <+: m) (hne : l ≠ m) : Precedes l m := by
  rcases h with ⟨rest, rfl⟩
  cases rest with
  | nil => exact absurd (List.append_nil l).symm hne
  | cons c rest =>
      have hlex := List.Lex.append_left (fun x y : Char => x.toNat < y.toNat)
        (List.Lex.nil (a := c) (l := rest)) l
      rw [List.append_nil] at hlex
      exact hlex

theorem compare_symbol_eq_lt_iff {x y : Char} : compare x y = .lt ↔ x.toNat < y.toNat := by
  show compareOfLessAndEq x y = .lt ↔ x.toNat < y.toNat
  rw [compareOfLessAndEq_eq_lt]
  exact Iff.rfl

theorem compare_word_eq_lt_iff {l m : List Char} : compare l m = .lt ↔ Precedes l m := by
  unfold Precedes
  induction l generalizing m with
  | nil =>
      cases m with
      | nil => simp
      | cons y m => simp
  | cons x l ih =>
      cases m with
      | nil => simp
      | cons y m =>
          -- Equal tops leave the decision to the rest, in the comparison as in the order.
          rw [List.compare_cons_cons, Ordering.then_eq_lt, List.cons_lex_cons_iff, ih,
            compare_symbol_eq_lt_iff, Std.compare_eq_iff_eq]

theorem compare_eq_lt_iff : compare s t = .lt ↔ Precedes s.symbols t.symbols :=
  compare_word_eq_lt_iff

theorem compare_eq_eq_iff : compare s t = .eq ↔ s.symbols = t.symbols :=
  Std.compare_eq_iff_eq (α := List Char)

/-- That the heights are compared first changes no answer. -/
theorem beq_iff : (s == t) = true ↔ s.symbols = t.symbols := by
  show (s.height == t.height && s.symbols == t.symbols) = true ↔ s.symbols = t.symbols
  rw [Bool.and_eq_true, beq_iff_eq, beq_iff_eq]
  constructor
  · intro h
    exact h.2
  · intro h
    exact ⟨by rw [s.height_eq, t.height_eq, h], h⟩

instance : LawfulBEq Stack where
  eq_of_beq h := eq_of_symbols_eq (beq_iff.1 h)
  rfl := beq_iff.2 rfl

/-- Equality of stacks whose nodes may be shared. If the heights agree and both have the
    same node on top, the symbols need not be compared. -/
def equalSharing (shared : Stack → Stack → Bool) (s t : Stack) : Bool :=
  s.height == t.height && (shared s t || s.symbols == t.symbols)

/-- If what is shared has equal symbols, then looking for it first changes no answer. -/
theorem equalSharing_eq {shared : Stack → Stack → Bool}
    (h : ∀ s t, shared s t = true → s.symbols = t.symbols) :
    s.equalSharing shared t = (s == t) := by
  show (s.height == t.height && (shared s t || s.symbols == t.symbols)) =
    (s.height == t.height && s.symbols == t.symbols)
  cases hshared : shared s t with
  | false => rw [Bool.false_or]
  | true =>
      -- The symbols would have been found equal, had they been compared.
      rw [h s t hshared, beq_self_eq_true, Bool.true_or]

/-- A stack that is taller can still be the smaller one. -/
example : compare (ofList ['a', 'a']) (ofList ['b']) = .lt := by decide

end Stack

/-! ## Configurations -/

/-- What at most means under a comparison is a linear order. -/
theorem Ordered.isLinearOrder (α : Type u) [Ordered α] :
    IsLinearOrder α fun a b => (compare a b).isLE = true where
  refl a := Std.ReflCmp.isLE_rfl
  trans a b c := Std.TransCmp.isLE_trans
  antisymm a b hab hba := Std.LawfulEqCmp.eq_of_compare (Std.OrientedCmp.isLE_antisymm hab hba)
  total a b := by
    rw [← Bool.or_eq_true]
    exact isLE_or_isLE a b

namespace Configuration

variable {S : Type u} [Ordered S] {c d : Configuration S}

/-- The order of configurations: the stuck ones come first, then the state decides, and
    where that is the same, the stack does. -/
inductive Precedes : Configuration S → Configuration S → Prop
  | stuck {q : S} {s t : Stack} : Precedes ⟨none, s⟩ ⟨some q, t⟩
  | state {p q : S} {s t : Stack} : compare p q = .lt → Precedes ⟨some p, s⟩ ⟨some q, t⟩
  | stack {state? : Option S} {s t : Stack} :
      Stack.Precedes s.symbols t.symbols → Precedes ⟨state?, s⟩ ⟨state?, t⟩

theorem beq_iff : (c == d) = true ↔ c = d := by
  rcases c with ⟨p, s⟩
  rcases d with ⟨q, t⟩
  show (decide (p = q) && s == t) = true ↔ _
  rw [Bool.and_eq_true, decide_eq_true_eq, beq_iff_eq, Configuration.mk.injEq]

instance : LawfulBEq (Configuration S) where
  eq_of_beq := beq_iff.1
  rfl := beq_iff.2 rfl

theorem compare_eq_lt_iff : compare c d = .lt ↔ c.Precedes d := by
  rcases c with ⟨p, s⟩
  rcases d with ⟨q, t⟩
  show (compare p q).then (compare s t) = .lt ↔ _
  rw [Ordering.then_eq_lt, Std.compare_eq_iff_eq, Stack.compare_eq_lt_iff]
  constructor
  · rintro (hstate | ⟨rfl, hstack⟩)
    -- Of two states that differ, only the smaller one can be missing.
    · cases p with
      | none =>
          cases q with
          | none => cases hstate
          | some q => exact .stuck
      | some p =>
          cases q with
          | none => cases hstate
          | some q => exact .state hstate
    · exact .stack hstack
  · intro h
    cases h with
    | stuck => exact .inl rfl
    | state hstate => exact .inl hstate
    | stack hstack => exact .inr ⟨rfl, hstack⟩

end Configuration

/-! ## Sets of configurations -/

namespace SortedSet

variable {α : Type u} [Ordered α] [BEq α] [LawfulBEq α]

/-- Looking up by the order finds what a scan for equal elements finds. -/
theorem contains_eq_contains (s : SortedSet α) (a : α) : s.contains a = s.toList.contains a := by
  rw [Bool.eq_iff_iff, contains_iff, mem_def, List.contains_iff_mem]

/-- No two elements of a set pass for equal. -/
theorem pairwise_beq_eq_false (s : SortedSet α) : s.toList.Pairwise fun a b => (a == b) = false :=
  s.nodup_toList.imp fun hne => beq_eq_false_iff_ne.2 hne

/-- Sorting keeps one of equals, as a test for equality does. -/
theorem toList_ofList_perm (l : List α) : (ofList l).toList.Perm l.eraseDups := by
  rw [← Numbering.toList_inserted]
  apply toList_perm_toList
  intro a
  rw [mem_ofList, Numbering.mem_inserted]

end SortedSet

namespace Npda.Rulebook

variable {S : Type u} [Ordered S]

/-- What following epsilon rules comes upon, in order and with repetitions: the given
    configurations, and for each that is visited those that are not too tall and to which
    a rule leads from it. -/
def encountered (b : Rulebook S) (configurations : SortedSet (Configuration S)) :
    List (Configuration S) :=
  let limit := b.heightLimit configurations
  configurations.toList ++ (b.freeWalk limit configurations.toList).visits.flatMap fun v =>
    (b.freeMoves limit).successors v.node

/-- A closure has what the walk encounters, each of them once. -/
theorem perm_encountered (b : Rulebook S) (configurations : SortedSet (Configuration S)) :
    (b.closure configurations).configurations.toList.Perm
      (b.encountered configurations).eraseDups := by
  have hdiscovered : (b.freeWalk (b.heightLimit configurations) configurations.toList).discovered =
      .inserted (b.encountered configurations) := Graph.discovered_explore
  have hclosure : (b.closure configurations).configurations = .ofList
      (b.freeWalk (b.heightLimit configurations) configurations.toList).discovered.toList := rfl
  -- The walk keeps what it encounters in the order of discovery, and the closure sorts it.
  rw [hclosure, hdiscovered, ← Numbering.toList_inserted]
  apply SortedSet.toList_perm_toList
  intro c
  rw [SortedSet.mem_ofList, Numbering.mem_toList]

end Npda.Rulebook

/-- The height of a stack, its equality and its order say the same of the symbols that the
    stack was built of, and so do equality and order of configurations. A set keeps no two
    configurations that are equal, and loses none of those that differ, whether they are
    told apart by the one or by the other. -/
theorem Configuration.order_agrees_with_equality (S : Type u) [Ordered S] :
    (∀ history, (Stack.built history).symbols = Stack.meant history ∧
      (Stack.built history).height = (Stack.meant history).length) ∧
    (∀ symbols, Stack.ofList symbols = symbols.foldr (fun c s => s.push c) .empty) ∧
    (∀ history history', let s := Stack.built history
      let t := Stack.built history'
      ((s == t) = true ↔ Stack.meant history = Stack.meant history') ∧
      (compare s t = .eq ↔ Stack.meant history = Stack.meant history') ∧
      (compare s t = .lt ↔ Stack.Precedes (Stack.meant history) (Stack.meant history')) ∧
      (Stack.meant history <+: Stack.meant history' → Stack.meant history ≠ Stack.meant history' →
        compare s t = .lt) ∧
      ∀ shared : Stack → Stack → Bool, (∀ s t, shared s t = true → s.symbols = t.symbols) →
        s.equalSharing shared t = (s == t)) ∧
    IsLinearOrder Stack (fun s t => (compare s t).isLE = true) ∧
    (∀ c d : Configuration S, ((c == d) = true ↔ c = d) ∧ (compare c d = .eq ↔ c = d) ∧
      (compare c d = .lt ↔ c.Precedes d)) ∧
    IsLinearOrder (Configuration S) (fun c d => (compare c d).isLE = true) ∧
    (∀ (s : SortedSet (Configuration S)) (c : Configuration S),
      s.toList.Pairwise (fun c d => (c == d) = false) ∧ s.contains c = s.toList.contains c) ∧
    (∀ l : List (Configuration S), (SortedSet.ofList l).toList.Perm l.eraseDups ∧
      (Numbering.inserted l).toList = l.eraseDups) ∧
    ∀ (b : Npda.Rulebook S) (cs : SortedSet (Configuration S)),
      (b.closure cs).configurations.toList.Perm (b.encountered cs).eraseDups := by
  refine ⟨fun history => ⟨Stack.symbols_built history, Stack.height_built history⟩,
    Stack.ofList_eq_foldr, fun history history' => ?_, Ordered.isLinearOrder Stack, fun c d => ?_,
    Ordered.isLinearOrder (Configuration S), fun s c => ?_, fun l => ?_, fun b cs => ?_⟩
  · -- From here on only the symbols count, however the stacks came about.
    rw [← Stack.symbols_built history, ← Stack.symbols_built history']
    refine ⟨Stack.beq_iff, Stack.compare_eq_eq_iff, Stack.compare_eq_lt_iff, ?_, ?_⟩
    · intro hprefix hne
      exact Stack.compare_eq_lt_iff.2 (Stack.precedes_of_prefix hprefix hne)
    · intro shared hshared
      exact Stack.equalSharing_eq hshared
  · exact ⟨Configuration.beq_iff, Std.compare_eq_iff_eq, Configuration.compare_eq_lt_iff⟩
  · exact ⟨s.pairwise_beq_eq_false, s.contains_eq_contains c⟩
  · exact ⟨SortedSet.toList_ofList_perm l, Numbering.toList_inserted l⟩
  · exact b.perm_encountered cs

/-- A stack that was built in two ways, as clones of which it may have one node on top, and
    a stack of its upper symbol alone. -/
theorem Configuration.order_agrees_with_equality_clones :
    let cloned := fun s t : Stack => s.symbols == ['b', 'a'] && t.symbols == ['b', 'a']
    let s := Stack.built [.new ['c', 'a'], .pop, .push 'b']
    let t := Stack.built [.push 'a', .push 'b']
    let upper := Stack.built [.new ['b']]
    (∀ s t, cloned s t = true → s.symbols = t.symbols) ∧
    s.equalSharing cloned t = (s == t) ∧ (s == t) = true ∧ compare upper s = .lt := by
  intro cloned s t upper
  have hcloned : ∀ s t, cloned s t = true → s.symbols = t.symbols := by
    intro s t h
    have hboth := Bool.and_eq_true_iff.1 h
    rw [eq_of_beq hboth.1, eq_of_beq hboth.2]
  have hpairs := (Configuration.order_agrees_with_equality Nat).2.2.1
  have hst := hpairs [.new ['c', 'a'], .pop, .push 'b'] [.push 'a', .push 'b']
  have hupper := hpairs [.new ['b']] [.new ['c', 'a'], .pop, .push 'b']
  exact ⟨hcloned, hst.2.2.2.2 cloned hcloned, hst.1.2 rfl, hupper.2.2.2.1 (by decide) (by decide)⟩

end WordAutomata
