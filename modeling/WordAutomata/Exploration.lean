import WordAutomata.Numbering

/-!
# Exploring a Graph

Epsilon closures and the subset construction walk the same way: they keep a
list of things discovered but not yet looked at, take the one discovered last,
follow its edges, and put whatever is new on the list. `explore` is that walk
for any graph given by the edges of a node.

An edge may lead nowhere, which is how a closure leaves out configurations
that are too tall. The walk reports for each visit the edges it saw, so the
caller learns of those as well, and needs no second walk for the rules of a
determinized automaton.

The walk ends if the nodes it can meet are among finitely many. The caller
proves this by naming a property that the seeds have, that edges keep, and
that holds of the nodes of some list only. Nothing is computed from the list:
for a pushdown automaton it is astronomically long.

## Main definitions

* `Graph`: Edges of a node, and where an edge leads.
* `Visit`: What was seen when a node was taken from the list.
* `Exploration`: The nodes in order of discovery, the visits in order.
* `Graph.Confines`: The property that makes the walk end.
* `Graph.explore`: The walk from some seeds.

## Theorems

* `Graph.unseen_insertAll_lt`: A discovery leaves less to discover, which is
  why the walk ends.
* `Graph.nodup_nodes_explore`: No node is visited twice.
* `Graph.inside_of_mem_explore`: Only nodes to which the walk is confined are
  discovered.
* `Graph.edges_of_mem_explore`: A visit reports the edges of its node.
-/

universe u v

namespace WordAutomata

/-- A graph by the edges of its nodes. -/
structure Graph (α : Type u) (β : Type v) where
  /-- The edges that leave a node, in order. -/
  edges : α → List β
  /-- The node that an edge leads to, unless it leads nowhere. -/
  target? : β → Option α

/-- What was seen when a node was taken from the list of discovered nodes. -/
structure Visit (α : Type u) (β : Type v) where
  /-- The node. -/
  node : α
  /-- The edges that leave it. -/
  edges : List β
  /-- The nodes discovered through these edges, the last one first. -/
  fresh : List α

/-- A finished walk. -/
structure Exploration (α : Type u) (β : Type v) [Ordered α] where
  /-- The nodes, numbered in order of discovery. -/
  discovered : Numbering α
  /-- The visits, in order. -/
  visits : List (Visit α β)

namespace Exploration

variable {α : Type u} {β : Type v} [Ordered α]

/-- All edges that were seen, in order. -/
def edges (x : Exploration α β) : List β := x.visits.flatMap Visit.edges

end Exploration

namespace Graph

variable {α : Type u} {β : Type v}

/-- The nodes that the edges of a node lead to, in order. -/
def successors (g : Graph α β) (a : α) : List α := (g.edges a).filterMap g.target?

/-- A property that confines a walk: edges keep it, and only the nodes of some
    list have it. -/
structure Confines (g : Graph α β) (inside : α → Prop) : Prop where
  closed : ∀ a, inside a → ∀ b ∈ g.successors a, inside b
  finite : ∃ nodes : List α, ∀ a, inside a → a ∈ nodes

variable [Ordered α]

/-- The nodes of a list that are not yet discovered, counted with repetitions. -/
def unseen (nodes : List α) (discovered : Numbering α) : Nat :=
  nodes.countP fun a => !discovered.contains a

theorem unseen_insertAll_lt {nodes l : List α} {n : Numbering α}
    (hl : ∀ a ∈ l, a ∈ nodes) (h : (n.insertAll l).2 ≠ []) :
    unseen nodes (n.insertAll l).1 < unseen nodes n := by
  obtain ⟨a, ha⟩ := List.exists_mem_of_ne_nil _ h
  obtain ⟨hal, han⟩ := Numbering.mem_fresh_insertAll.1 ha
  have hmem : a ∈ nodes := hl a hal
  have hnew : a ∈ (n.insertAll l).1 := Numbering.mem_insertAll.2 (.inr hal)
  have hold : ∀ b : α, b ∈ n → b ∈ (n.insertAll l).1 :=
    fun b hb => Numbering.mem_insertAll.2 (.inl hb)
  simp only [Numbering.mem_def, Bool.not_eq_true] at han hnew hold
  clear ha hl hal
  unfold unseen
  -- The node that was discovered is counted before and not after.
  obtain ⟨front, back, rfl⟩ := List.append_of_mem hmem
  have mono : ∀ m : List α, m.countP (fun b => !(n.insertAll l).1.contains b) ≤
      m.countP fun b => !n.contains b := fun m => List.countP_mono_left fun b _ hb => by
    cases hc : n.contains b with
    | false => rfl
    | true => simp [hold b hc] at hb
  have h₁ := mono front
  have h₂ := mono back
  simp only [List.countP_append, List.countP_cons, hnew, han]
  simp
  omega

theorem unseen_insertAll_of_nil {nodes l : List α} {n : Numbering α}
    (h : (n.insertAll l).2 = []) : unseen nodes (n.insertAll l).1 = unseen nodes n := by
  have same : ∀ a : α, (n.insertAll l).1.contains a = n.contains a := fun a => by
    have hiff : a ∈ (n.insertAll l).1 ↔ a ∈ n := by
      have := Numbering.mem_fresh_insertAll (n := n) (l := l) (b := a)
      rw [h] at this
      rw [Numbering.mem_insertAll]
      grind
    simp only [Numbering.mem_def] at hiff
    rw [Bool.eq_iff_iff]
    exact hiff
  simp only [unseen, same]

/-- Takes nodes from the list of discovered nodes, the last one first, until
    none is left. The visits so far are held in reverse. -/
def walk (g : Graph α β) (inside : α → Prop) (confined : g.Confines inside)
    (waiting : List α) (hw : ∀ a ∈ waiting, inside a) (discovered : Numbering α)
    (visits : List (Visit α β)) : Exploration α β :=
  match waiting, hw with
  | [], _ => ⟨discovered, visits.reverse⟩
  | a :: rest, hw =>
    let edges := g.edges a
    let step := discovered.insertAll (edges.filterMap g.target?)
    have hs : ∀ b ∈ step.2, inside b := fun b hb =>
      confined.closed a (hw a List.mem_cons_self) b (Numbering.mem_fresh_insertAll.1 hb).1
    walk g inside confined (step.2 ++ rest)
      (fun b hb => (List.mem_append.1 hb).elim (hs b) fun hb => hw b (List.mem_cons_of_mem a hb))
      step.1 (⟨a, edges, step.2⟩ :: visits)
termination_by (unseen confined.finite.choose discovered, waiting.length)
decreasing_by
  have ht : ∀ b ∈ edges.filterMap g.target?, b ∈ confined.finite.choose := fun b hb =>
    confined.finite.choose_spec b (confined.closed a (hw a List.mem_cons_self) b hb)
  by_cases hnil : step.2 = []
  · rw [show unseen _ step.1 = _ from unseen_insertAll_of_nil hnil, hnil]
    exact Prod.Lex.right _ (Nat.lt_succ_self _)
  · exact Prod.Lex.left _ _ (unseen_insertAll_lt ht hnil)

/-- Explores the graph from some seeds. A seed that is given twice is
    discovered once. -/
def explore (g : Graph α β) (inside : α → Prop) (confined : g.Confines inside)
    (seeds : List α) (hs : ∀ a ∈ seeds, inside a) : Exploration α β :=
  let start := Numbering.empty.insertAll seeds
  g.walk inside confined start.2
    (fun a ha => hs a (Numbering.mem_fresh_insertAll.1 ha).1) start.1 []

theorem nodup_nodes_walk {g : Graph α β} {inside : α → Prop} {confined : g.Confines inside}
    {waiting : List α} {hw : ∀ a ∈ waiting, inside a} {discovered : Numbering α}
    {visits : List (Visit α β)} (once : (visits.map Visit.node ++ waiting).Nodup)
    (known : ∀ a ∈ visits.map Visit.node ++ waiting, a ∈ discovered) :
    ((g.walk inside confined waiting hw discovered visits).visits.map Visit.node).Nodup := by
  fun_induction walk g inside confined waiting hw discovered visits with
  | case1 discovered visits =>
    rw [List.append_nil] at once
    simp only [List.map_reverse]
    exact List.pairwise_reverse.2 (once.imp Ne.symm)
  | case2 discovered visits a rest _ edges step _ _ ih =>
    have fresh : ∀ b ∈ step.2, ¬ b ∈ discovered := fun b hb =>
      (Numbering.mem_fresh_insertAll.1 hb).2
    -- A visited node moves from the waiting ones to the visits, and what is
    -- added to the waiting ones was discovered only now.
    apply ih
    · rw [List.nodup_append] at once ⊢
      simp only [List.map_cons, List.nodup_cons, List.nodup_append, List.mem_cons,
        List.mem_append] at once known ⊢
      refine ⟨⟨fun h => once.2.2 a h a (.inl rfl) rfl, once.1⟩,
        ⟨Numbering.nodup_fresh_insertAll, once.2.1.2, ?_⟩, ?_⟩
      · rintro b hb c hc rfl
        exact fresh b hb (known b (.inr (.inr hc)))
      · rintro b hb c hc rfl
        rcases hc with hc | hc
        · exact fresh b hc (known b (hb.elim (fun h => .inr (.inl h)) .inl))
        · rcases hb with rfl | hb
          · exact once.2.1.1 hc
          · exact once.2.2 b hb b (.inr hc) rfl
    · intro b hb
      simp only [List.map_cons, List.mem_append, List.mem_cons] at hb known
      refine Numbering.mem_insertAll.2 ?_
      rcases hb with (rfl | hb) | hb | hb
      · exact .inl (known b (.inr (.inl rfl)))
      · exact .inl (known b (.inl hb))
      · exact .inr (Numbering.mem_fresh_insertAll.1 hb).1
      · exact .inl (known b (.inr (.inr hb)))

theorem edges_of_mem_walk {g : Graph α β} {inside : α → Prop} {confined : g.Confines inside}
    {waiting : List α} {hw : ∀ a ∈ waiting, inside a} {discovered : Numbering α}
    {visits : List (Visit α β)} (own : ∀ v ∈ visits, v.edges = g.edges v.node) :
    ∀ v ∈ (g.walk inside confined waiting hw discovered visits).visits,
      v.edges = g.edges v.node := by
  fun_induction walk g inside confined waiting hw discovered visits with
  | case1 discovered visits => simpa using own
  | case2 discovered visits a rest _ edges step _ _ ih =>
    refine ih fun v hv => ?_
    rcases List.mem_cons.1 hv with rfl | hv
    · rfl
    · exact own v hv

theorem inside_of_mem_walk {g : Graph α β} {inside : α → Prop} {confined : g.Confines inside}
    {waiting : List α} {hw : ∀ a ∈ waiting, inside a} {discovered : Numbering α}
    {visits : List (Visit α β)} (known : ∀ a ∈ discovered, inside a) :
    ∀ a ∈ (g.walk inside confined waiting hw discovered visits).discovered, inside a := by
  fun_induction walk g inside confined waiting hw discovered visits with
  | case1 discovered visits => exact known
  | case2 discovered visits a rest hw edges step _ _ ih =>
    refine ih fun b hb => ?_
    rcases Numbering.mem_insertAll.1 hb with hb | hb
    · exact known b hb
    · exact confined.closed a (hw a List.mem_cons_self) b hb

variable {g : Graph α β} {inside : α → Prop} {confined : g.Confines inside} {seeds : List α}
  {hs : ∀ a ∈ seeds, inside a}

/-- No node is visited twice. -/
theorem nodup_nodes_explore :
    ((g.explore inside confined seeds hs).visits.map Visit.node).Nodup := by
  refine nodup_nodes_walk ?_ fun a ha => ?_
  · simpa using Numbering.nodup_fresh_insertAll
  · exact Numbering.mem_insertAll.2 (.inr (Numbering.mem_fresh_insertAll.1 (by simpa using ha)).1)

/-- Only nodes to which the walk is confined are discovered. -/
theorem inside_of_mem_explore {a : α}
    (h : a ∈ (g.explore inside confined seeds hs).discovered.toList) : inside a := by
  refine inside_of_mem_walk (fun b hb => ?_) a (Numbering.mem_toList.1 h)
  rcases Numbering.mem_insertAll.1 hb with hb | hb
  · exact absurd hb Numbering.not_mem_empty
  · exact hs b hb

/-- A visit reports the edges of its node. -/
theorem edges_of_mem_explore {v : Visit α β} (h : v ∈ (g.explore inside confined seeds hs).visits) :
    v.edges = g.edges v.node :=
  edges_of_mem_walk (by simp) v h

end Graph

end WordAutomata
