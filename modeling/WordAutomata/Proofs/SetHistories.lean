import WordAutomata.SortedSet.Lemmas
import Mathlib.Data.Set.Insert
import Mathlib.Logic.Function.Basic
import Mathlib.Order.Defs.Unbundled

/-!
# Histories of Sorted Sets

A sorted set is a list, and its operations work on lists: they look for a place, sort,
merge, and drop what repeats. Whoever uses one thinks of a set in the mathematical sense,
which has members and no order. `members` leads from the one to the other.

Each operation does to the members what the set operation of the same name does, so a
whole history of operations, on as many sets as there are names, builds the sets that it is
meant to build. Where a set came from is not seen any more: its list is the ascending list
of its members, and sets with the same members are equal and compare as equal. States of a
determinized automaton are sets that were reached on different ways, and are told apart by
nothing else.

Inclusion and overlap are decided by going through two lists side by side. What is decided
is the inclusion and the overlap of the members, and all laws come from there.

## Main definitions

* `SortedSet.members`: The members of a sorted set.
* `SortedSet.Operation`: What can be done to sets that have names.
* `SortedSet.replay`: The values that have the names after a history.
* `SortedSet.built`: The sorted sets that a history builds.
* `SortedSet.meant`: The mathematical sets that the same history builds.

## Theorems

* `SortedSet.members_result`: One operation, on lists and on members.
* `SortedSet.apply_replay`: What holds of an operation holds of a history.
* `SortedSet.members_built`: What a history builds is what it is meant to build.
* `SortedSet.built_holds_meant`: What can be seen of it.
* `SortedSet.isPartialOrder_isSubset`, `isSubset_iff_union_eq`, `intersects_comm`: The laws
  of inclusion and overlap.
* `SortedSet.decides_inclusion_and_overlap`: What going through two lists decides.
-/

universe u v w

namespace WordAutomata

namespace SortedSet

variable {α : Type u} [Ordered α] {s t : SortedSet α}

/-! ## Members -/

/-- The members of a sorted set, as a set in the mathematical sense. -/
def members (s : SortedSet α) : Set α := {a | a ∈ s}

theorem mem_members {a : α} : a ∈ s.members ↔ a ∈ s := Iff.rfl

/-- A sorted set has nothing to it but its members. -/
theorem members_inj : s.members = t.members ↔ s = t := by
  constructor
  · intro h
    apply ext_mem
    intro a
    rw [← mem_members, h, mem_members]
  · intro h
    rw [h]

theorem members_empty : (empty : SortedSet α).members = ∅ := by
  ext a
  simp only [mem_members, not_mem_empty, Set.mem_empty_iff_false]

theorem members_singleton (a : α) : (singleton a).members = {a} := by
  ext b
  simp only [mem_members, mem_singleton, Set.mem_singleton_iff]

theorem members_ofList (l : List α) : (ofList l).members = {a | a ∈ l} := by
  ext a
  simp only [mem_members, mem_ofList, Set.mem_ofPred_eq]

theorem members_add (s : SortedSet α) (a : α) : (s.add a).members = {a} ∪ s.members := by
  ext b
  simp only [mem_members, mem_add, Set.mem_union, Set.mem_singleton_iff]

theorem members_extend (s : SortedSet α) (l : List α) :
    (s.extend l).members = s.members ∪ {a | a ∈ l} := by
  ext a
  simp only [mem_members, mem_extend, Set.mem_union, Set.mem_ofPred_eq]

theorem members_union (s t : SortedSet α) : (s.union t).members = s.members ∪ t.members := by
  ext a
  simp only [mem_members, mem_union, Set.mem_union]

/-! ## Histories -/

/-- What can be done to sets that have names. The first name is that of the set that is
    made, or of the one that is changed. -/
inductive Operation (ν : Type v) (α : Type u) where
  | new (name : ν)
  | singleton (name : ν) (a : α)
  | collect (name : ν) (elements : List α)
  | insert (name : ν) (a : α)
  | extend (name : ν) (elements : List α)
  | union (name left right : ν)
  | clone (name source : ν)

variable {ν : Type v}

/-- The name of the set that an operation makes or changes. -/
def Operation.name : Operation ν α → ν
  | new i => i
  | singleton i _ => i
  | collect i _ => i
  | insert i _ => i
  | extend i _ => i
  | union i _ _ => i
  | clone i _ => i

/-- The sorted set that comes of an operation. -/
def Operation.result (sets : ν → SortedSet α) : Operation ν α → SortedSet α
  | new _ => .empty
  | singleton _ a => .singleton a
  | collect _ l => .ofList l
  | insert i a => ((sets i).insert a).2
  | extend i l => (sets i).extend l
  | union _ i j => (sets i).union (sets j)
  | clone _ i => sets i

/-- The mathematical set that comes of an operation. -/
def Operation.meaning (sets : ν → Set α) : Operation ν α → Set α
  | new _ => ∅
  | singleton _ a => {a}
  | collect _ l => {a | a ∈ l}
  | insert i a => {a} ∪ sets i
  | extend i l => sets i ∪ {a | a ∈ l}
  | union _ i j => sets i ∪ sets j
  | clone _ i => sets i

/-- An operation does to the members what it does to mathematical sets. -/
theorem members_result (sets : ν → SortedSet α) (op : Operation ν α) :
    (op.result sets).members = op.meaning fun i => (sets i).members := by
  cases op with
  | new i => exact members_empty
  | singleton i a => exact members_singleton a
  | collect i l => exact members_ofList l
  | insert i a => exact members_add (sets i) a
  | extend i l => exact members_extend (sets i) l
  | union i j k => exact members_union (sets j) (sets k)
  | clone i j => rfl

variable [DecidableEq ν]

/-- The values that have the names after a history, if it is known what comes of each
    operation. All names that an operation does not speak of keep their values. -/
def replay {σ : Type w} (result : (ν → σ) → Operation ν α → σ) (values : ν → σ)
    (history : List (Operation ν α)) : ν → σ :=
  history.foldl (fun values op => Function.update values op.name (result values op)) values

omit [Ordered α] in
/-- If two kinds of values are translated into each other by each operation, then so they
    are by each history. -/
theorem apply_replay {σ τ : Type _} {result : (ν → σ) → Operation ν α → σ}
    {result' : (ν → τ) → Operation ν α → τ} (f : σ → τ)
    (h : ∀ values op, f (result values op) = result' (fun i => f (values i)) op)
    (values : ν → σ) (history : List (Operation ν α)) (i : ν) :
    f (replay result values history i) = replay result' (fun i => f (values i)) history i := by
  induction history generalizing values with
  | nil => rfl
  | cons op history ih =>
      -- Translating after the first operation is translating before it.
      have hstep : (fun j => f (Function.update values op.name (result values op) j)) =
          Function.update (fun j => f (values j)) op.name (result' (fun j => f (values j)) op) := by
        rw [← h]
        exact Function.comp_update f values op.name (result values op)
      have hrest := ih (Function.update values op.name (result values op))
      rw [hstep] at hrest
      exact hrest

/-- The sorted sets that a history builds. At first they are all empty. -/
def built (history : List (Operation ν α)) : ν → SortedSet α :=
  replay (fun sets op => op.result sets) (fun _ => .empty) history

/-- The mathematical sets that a history builds. -/
def meant (history : List (Operation ν α)) : ν → Set α :=
  replay (fun sets op => op.meaning sets) (fun _ => ∅) history

theorem members_built (history : List (Operation ν α)) (i : ν) :
    (built history i).members = meant history i := by
  have h := apply_replay members members_result (fun _ => empty) history i
  simp only [members_empty] at h
  exact h

theorem built_eq_iff {history other : List (Operation ν α)} {i j : ν} :
    built history i = built other j ↔ meant history i = meant other j := by
  rw [← members_built, ← members_built, members_inj]

/-- Whatever is done to sorted sets, each of them is an ascending list of the members that
    it is meant to have. Looking up finds these, and inserting tells that an element is new
    if it is none of them. Two sets, be they built by the same history or by others, are
    equal exactly if they are meant to be, and so do they compare. -/
theorem built_holds_meant (history other : List (Operation ν α)) (i j : ν) :
    ((built history i).toList.Pairwise fun a b => compare a b = .lt) ∧
    (∀ a, a ∈ (built history i).toList ↔ a ∈ meant history i) ∧
    (∀ a, (built history i).contains a = true ↔ a ∈ meant history i) ∧
    (∀ a, ((built history i).insert a).1 = true ↔ a ∉ meant history i) ∧
    (built history i = built other j ↔ meant history i = meant other j) ∧
    (compare (built history i) (built other j) = .eq ↔ meant history i = meant other j) := by
  have hmem : ∀ a, a ∈ built history i ↔ a ∈ meant history i := by
    intro a
    rw [← members_built, mem_members]
  refine ⟨(built history i).ascending, hmem, fun a => ?_, fun a => ?_, built_eq_iff, ?_⟩
  · rw [contains_iff, hmem]
  · rw [← hmem, ← contains_iff]
    unfold SortedSet.insert
    rw [Bool.not_eq_true', Bool.not_eq_true]
  · rw [Std.compare_eq_iff_eq, built_eq_iff]

/-- A set that was collected, and the same set put together from parts. -/
example : (built [.collect 0 [3, 1, 2, 1], .singleton 1 2, .extend 1 [3, 2], .insert 2 1,
    .union 1 1 2] 1).toList = [1, 2, 3] := by cbv

/-! ## Inclusion and overlap -/

theorem isSubset_iff_members : s.isSubset t = true ↔ s.members ⊆ t.members := isSubset_iff

/-- The laws of inclusion are those that hold of the members. -/
theorem isPartialOrder_isSubset :
    IsPartialOrder (SortedSet α) fun s t => s.isSubset t = true where
  refl s := isSubset_iff_members.2 (Set.Subset.refl _)
  trans s t r hst htr := by
    rw [isSubset_iff_members] at hst htr ⊢
    exact hst.trans htr
  antisymm s t hst hts := by
    rw [isSubset_iff_members] at hst hts
    exact members_inj.1 (Set.Subset.antisymm hst hts)

theorem isSubset_iff_union_eq : s.isSubset t = true ↔ s.union t = t := by
  rw [isSubset_iff_members, ← members_inj, members_union, Set.union_eq_right]

theorem intersects_comm (s t : SortedSet α) : s.intersects t = t.intersects s := by
  rw [Bool.eq_iff_iff, intersects_iff, intersects_iff]
  simp only [and_comm]

/-- Going through two lists side by side decides whether one set is included in the other,
    and whether they have a member in common. Inclusion is a partial order, in which sets
    that include each other are equal. It says that the larger set is the union of both.
    Overlap does not depend on which of the two sets is the first. -/
theorem decides_inclusion_and_overlap (α : Type u) [Ordered α] :
    (∀ s t : SortedSet α, s.isSubset t = true ↔ ∀ a ∈ s, a ∈ t) ∧
    (∀ s t : SortedSet α, s.intersects t = true ↔ ∃ a, a ∈ s ∧ a ∈ t) ∧
    IsPartialOrder (SortedSet α) (fun s t => s.isSubset t = true) ∧
    (∀ s t : SortedSet α, s.isSubset t = true ↔ s.union t = t) ∧
    ∀ s t : SortedSet α, s.intersects t = t.intersects s := by
  exact ⟨fun s t => isSubset_iff, fun s t => intersects_iff, isPartialOrder_isSubset,
    fun s t => isSubset_iff_union_eq, intersects_comm⟩

end SortedSet

end WordAutomata
