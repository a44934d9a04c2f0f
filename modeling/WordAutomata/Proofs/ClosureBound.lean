import WordAutomata.Npda.Run
import WordAutomata.Proofs.Discovery
import WordAutomata.Proofs.Records
import WordAutomata.Proofs.StackLocality
import Mathlib

/-!
# How Tall a Finite Closure Gets

The epsilon closure of a set is infinite exactly if it has stacks of any height,
since there are only finitely many configurations up to a height. And either it
has stacks of any height, or all of them stay within the growth that a closure
allows for.

Consider a run that ends far above its start, and for each height in between the
last moment at which the run was there. What follows stays above, so if two of
these moments have the same key, then a piece of the run is a repetition with a
pile, and stacks of any height are reached. If they all have different keys, then
there are no more of them than keys, and one rule after each of them raises the
stack. `Climb` collects these moments, going through the run from its end.

The closure leaves out what is too tall, and reports that it did so. If it left
out nothing, it is complete. If it left out something, then some stack is taller
than a finite closure allows for.

## Main definitions

* `Pushdown.freeClosure`: What epsilon rules reach from some configurations.
* `Pushdown.Grows`: A repetition with a pile can be reached.
* `Npda.Climb`: The keys at which a run left its heights for the last time.

## Theorems

* `Npda.climb_or_grows`: A run climbs, or else meets a repetition.
* `Npda.height_le_of_not_grows`: Without repetitions, stacks stay within bounds.
* `Npda.Rulebook.truncated_iff`: A closure is truncated if some stack is too tall.
* `Npda.Rulebook.closureNoting_exact`: It is complete if that is possible, and
  warns exactly if it is not.
-/

universe u

namespace WordAutomata

open Pushdown

variable {S : Type u} [Ordered S]

namespace Pushdown

/-- The configurations that epsilon rules, in any number, reach from some given
    ones. -/
def freeClosure (rules : List (Rule S)) (cs : SortedSet (Configuration S)) :
    Set (Configuration S) :=
  {d | ∃ c ∈ cs, FreelyReaches rules c d}

/-- Epsilon rules lead to a configuration that they can repeat, with a pile. -/
def Grows (rules : List (Rule S)) (c : Configuration S) : Prop :=
  ∃ e k pile, FreelyReaches rules c e ∧ e.At k ∧ Repeats rules k pile ∧ pile ≠ []

variable {rules : List (Rule S)} {c c' d : Configuration S}

theorem Grows.head (hstep : Step rules .epsilon c c') (h : Grows rules c') : Grows rules c := by
  rcases h with ⟨e, k, pile, hreach, hat, hrepeats, hpile⟩
  exact ⟨e, k, pile, hreach.head hstep, hat, hrepeats, hpile⟩

theorem Grows.exists_taller (h : Grows rules c) (height : Nat) :
    ∃ d, FreelyReaches rules c d ∧ height < d.stack.height := by
  rcases h with ⟨e, k, pile, hreach, hat, hrepeats, hpile⟩
  rcases hrepeats.exists_taller hpile hat height with ⟨d, hd, hlt⟩
  exact ⟨d, hreach.trans hd, hlt⟩

end Pushdown

theorem le_foldr_max {α : Type u} {f : α → Nat} {l : List α} {a : α} (h : a ∈ l) :
    f a ≤ l.foldr (fun b n => max (f b) n) 0 := by
  induction l with
  | nil => exact absurd h List.not_mem_nil
  | cons b l ih =>
      rw [List.foldr_cons]
      rcases List.mem_cons.1 h with rfl | h
      · exact Nat.le_max_left _ _
      · exact Nat.le_trans (ih h) (Nat.le_max_right _ _)

namespace Npda

variable {rules : List (Rule S)} {c c' d : Configuration S}

/-! ## Climbing -/

/-- The keys of the epsilon rules. -/
def freeKeys (rules : List (Rule S)) : SortedSet (S × Char) :=
  .ofList ((rules.filter fun r => r.symbol.isEpsilon).map fun r => (r.source, r.popped))

omit [Ordered S] in
/-- The most by which an epsilon rule raises the stack. -/
def longestRise (rules : List (Rule S)) : Nat :=
  (rules.filter fun r => r.symbol.isEpsilon).foldr (fun r n => max (r.pushed.length - 1) n) 0

theorem freeGrowth_eq : freeGrowth rules = (freeKeys rules).size * longestRise rules := rfl

omit [Ordered S] in
theorem mem_free {r : Rule S} (hr : r ∈ rules) (hsymbol : r.symbol = .epsilon) :
    r ∈ rules.filter fun r => r.symbol.isEpsilon :=
  List.mem_filter.2 ⟨hr, by rw [hsymbol]; rfl⟩

/-- A configuration in which an epsilon rule is taken has the key of the rule. -/
theorem exists_freeKey (h : Step rules .epsilon c d) : ∃ k ∈ freeKeys rules, c.At k := by
  rcases h with ⟨r, hr, happ, _⟩
  rcases Rule.applies_iff.1 happ with ⟨hat, hsymbol⟩
  exact ⟨_, SortedSet.mem_ofList.2 (List.mem_map.2 ⟨r, mem_free hr hsymbol, rfl⟩), hat⟩

theorem height_le_of_step (h : Step rules .epsilon c d) :
    d.stack.height ≤ c.stack.height + longestRise rules := by
  have hpos : 0 < c.stack.height := by
    rw [c.stack.height_eq]
    exact List.length_pos_iff.2 h.symbols_ne_nil
  rcases h with ⟨r, hr, happ, rfl⟩
  have hrise : r.pushed.length - 1 ≤ longestRise rules :=
    le_foldr_max (f := fun r : Rule S => r.pushed.length - 1)
      (mem_free hr (Rule.applies_iff.1 happ).2)
  have hheight : (r.follow c).stack.height = r.pushed.length + (c.stack.height - 1) := rfl
  omega

/-- The keys at which a run left its heights for the last time, above its lowest
    one. A run that has them gains at most one rise for each key. -/
structure Climb (rules : List (Rule S)) (low : Nat) (keys : List (S × Char))
    (c d : Configuration S) : Prop where
  nodup : keys.Nodup
  known : ∀ k ∈ keys, k ∈ freeKeys rules
  low_le : low ≤ c.stack.height
  height_le : d.stack.height ≤ low + keys.length * longestRise rules
  met : ∀ k ∈ keys, ∃ e, e.At k ∧ low ≤ e.stack.height ∧ Above rules low c e

/-- A run that goes nowhere climbs, without any keys. -/
theorem climb_refl (c : Configuration S) : Climb rules c.stack.height [] c c where
  nodup := List.nodup_nil
  known _ hk := absurd hk List.not_mem_nil
  low_le := Nat.le_refl _
  height_le := Nat.le_add_right _ _
  met _ hk := absurd hk List.not_mem_nil

variable {low : Nat} {keys : List (S × Char)}

/-- One more rule in front, taken above the lowest height, changes nothing. -/
theorem Climb.head (h : Climb rules low keys c' d) (hstep : Step rules .epsilon c c')
    (hlow : low ≤ c.stack.height) : Climb rules low keys c d where
  nodup := h.nodup
  known := h.known
  low_le := hlow
  height_le := h.height_le
  met k hk := by
    rcases h.met k hk with ⟨e, hat, hle, habove⟩
    exact ⟨e, hat, hle, habove.head ⟨hlow, hstep⟩⟩

/-- One more rule in front, taken at a new lowest height, adds its key. -/
theorem Climb.head_of_lt {k : S × Char} (h : Climb rules low keys c' d)
    (hstep : Step rules .epsilon c c') (hlow : c.stack.height < low) (hat : c.At k)
    (hk : k ∈ freeKeys rules) (hnew : ¬ k ∈ keys) :
    Climb rules c.stack.height (k :: keys) c d where
  nodup := List.nodup_cons.2 ⟨hnew, h.nodup⟩
  known k' hk' := by
    rcases List.mem_cons.1 hk' with rfl | hk'
    · exact hk
    · exact h.known k' hk'
  low_le := Nat.le_refl _
  height_le := by
    -- The rule raises the stack to the old lowest height at least.
    have hrise := height_le_of_step hstep
    have hlow_le := h.low_le
    have hheight := h.height_le
    rw [List.length_cons, Nat.succ_mul]
    omega
  met k' hk' := by
    rcases List.mem_cons.1 hk' with rfl | hk'
    · exact ⟨c, hat, Nat.le_refl _, .refl⟩
    · rcases h.met k' hk' with ⟨e, hat', hle, habove⟩
      refine ⟨e, hat', by omega, ?_⟩
      exact (habove.lower (Nat.le_of_lt hlow)).head ⟨Nat.le_refl _, hstep⟩

/-- One more rule in front, taken at a new lowest height with a key that the run
    meets again, makes a repetition. The key is met further up, so there is a pile. -/
theorem Climb.grows {k : S × Char} (h : Climb rules low keys c' d)
    (hstep : Step rules .epsilon c c') (hlow : c.stack.height < low) (hat : c.At k)
    (hold : k ∈ keys) : Grows rules c := by
  rcases h.met k hold with ⟨e, hat', hle, habove⟩
  rcases repeats_of_above hat hat' hstep (habove.lower (Nat.le_of_lt hlow)) (by omega) with
    ⟨pile, hpile, hheight⟩
  refine ⟨c, k, pile, .refl, hat, hpile, ?_⟩
  rintro rfl
  rw [List.length_nil] at hheight
  omega

/-- A run of epsilon rules climbs, or meets a repetition with a pile. -/
theorem climb_or_grows (h : FreelyReaches rules c d) :
    (∃ low keys, Climb rules low keys c d) ∨ Grows rules c := by
  -- Induction from the end of the run, so that a moment comes before all that the
  -- climb already has.
  induction h using Relation.ReflTransGen.head_induction_on with
  | refl => exact .inl ⟨d.stack.height, [], climb_refl d⟩
  | @head c c' hstep _ ih =>
      rcases ih with ⟨low, keys, hclimb⟩ | hgrows
      · by_cases hlow : low ≤ c.stack.height
        · exact .inl ⟨low, keys, hclimb.head hstep hlow⟩
        · have hlt : c.stack.height < low := by omega
          rcases exists_freeKey hstep with ⟨k, hk, hat⟩
          by_cases hold : k ∈ keys
          · exact .inr (hclimb.grows hstep hlt hat hold)
          · exact .inl ⟨_, k :: keys, hclimb.head_of_lt hstep hlt hat hk hold⟩
      · exact .inr (hgrows.head hstep)

/-- Where no repetition with a pile can be reached, no stack is taller than at the
    start by more than the growth of the rules. -/
theorem height_le_of_not_grows (hgrows : ¬ Grows rules c) (h : FreelyReaches rules c d) :
    d.stack.height ≤ c.stack.height + freeGrowth rules := by
  rcases (climb_or_grows h).resolve_right hgrows with ⟨low, keys, hclimb⟩
  -- The keys are different, so there are no more of them than rules have.
  have hlength : keys.length ≤ (freeKeys rules).size :=
    hclimb.nodup.length_le_of_subset hclimb.known
  have hmul := Nat.mul_le_mul_right (longestRise rules) hlength
  have hheight := hclimb.height_le
  have hlow := hclimb.low_le
  rw [freeGrowth_eq]
  omega

namespace Rulebook

variable {b : Rulebook S} {cs : SortedSet (Configuration S)}

theorem height_add_growth_le (b : Rulebook S) (hc : c ∈ cs) :
    c.stack.height + freeGrowth b.rules ≤ b.heightLimit cs := by
  have hseed := le_foldr_max (f := fun c : Configuration S => c.stack.height) hc
  unfold heightLimit
  rw [b.growth_eq]
  omega

/-- In a finite closure no stack exceeds the limit. -/
theorem height_le_of_finite (hfinite : (freeClosure b.rules cs).Finite)
    (hd : d ∈ freeClosure b.rules cs) : d.stack.height ≤ b.heightLimit cs := by
  rcases hd with ⟨c, hc, hreach⟩
  have hgrows : ¬ Grows b.rules c := by
    intro hgrows
    -- The heights in a finite set have a bound, but these have none.
    rcases (hfinite.image fun e => e.stack.height).bddAbove with ⟨bound, hbound⟩
    rcases hgrows.exists_taller bound with ⟨e, he, hlt⟩
    have hle := hbound (Set.mem_image_of_mem _ ⟨c, hc, he⟩)
    omega
  have hle := height_le_of_not_grows hgrows hreach
  have hlimit := b.height_add_growth_le hc
  omega

/-! ## The walk up to a height -/

theorem leads_freeMoves {limit : Nat} :
    (b.freeMoves limit).Leads c d ↔ Step b.rules .epsilon c d ∧ d.stack.height ≤ limit := by
  simp only [Graph.Leads, Graph.successors, freeMoves, List.mem_filterMap,
    Option.ite_none_right_eq_some, Option.some.injEq]
  constructor
  · rintro ⟨e, he, hle, rfl⟩
    exact ⟨mem_successors.1 he, hle⟩
  · rintro ⟨hstep, hle⟩
    exact ⟨d, mem_successors.2 hstep, hle, rfl⟩

theorem mem_closure_iff :
    d ∈ (b.closure cs).configurations ↔
      (b.freeMoves (b.heightLimit cs)).Reachable cs.toList d := by
  rw [closure, SortedSet.mem_ofList, freeWalk]
  exact Graph.mem_discovered_explore

/-- A closure holds only what epsilon rules reach. -/
theorem mem_freeClosure_of_mem_closure (h : d ∈ (b.closure cs).configurations) :
    d ∈ freeClosure b.rules cs := by
  rcases mem_closure_iff.1 h with ⟨c, hc, hreach⟩
  exact ⟨c, hc, Relation.ReflTransGen.mono (fun _ _ h => (leads_freeMoves.1 h).1) _ _ hreach⟩

theorem mem_closure_of_mem (hc : c ∈ cs) : c ∈ (b.closure cs).configurations :=
  mem_closure_iff.2 ⟨c, hc, .refl⟩

/-- What a rule leads to from a member of a closure is a member, unless it is too
    tall. -/
theorem mem_closure_of_step (hc : c ∈ (b.closure cs).configurations)
    (hstep : Step b.rules .epsilon c d) (hle : d.stack.height ≤ b.heightLimit cs) :
    d ∈ (b.closure cs).configurations := by
  rcases mem_closure_iff.1 hc with ⟨s, hs, hreach⟩
  exact mem_closure_iff.2 ⟨s, hs, hreach.tail (leads_freeMoves.2 ⟨hstep, hle⟩)⟩

theorem height_le_of_mem_closure (h : d ∈ (b.closure cs).configurations) :
    d.stack.height ≤ b.heightLimit cs := by
  rcases mem_closure_iff.1 h with ⟨c, hc, hreach⟩
  rcases Relation.ReflTransGen.cases_tail hreach with rfl | ⟨m, _, hm⟩
  · have hlimit := b.height_add_growth_le hc
    omega
  · exact (leads_freeMoves.1 hm).2

/-- A walk sees something too tall if a rule leads there from a member. -/
theorem truncated_eq_true_iff : (b.closure cs).truncated = true ↔
    ∃ c ∈ (b.closure cs).configurations, ∃ d, Step b.rules .epsilon c d ∧
      b.heightLimit cs < d.stack.height := by
  have hedges : ∀ v ∈ (b.freeWalk (b.heightLimit cs) cs.toList).visits, ∀ d,
      d ∈ v.edges ↔ Step b.rules .epsilon v.node d := by
    intro v hv d
    rw [freeWalk] at hv
    rw [Graph.edges_of_mem_explore hv]
    exact mem_successors
  have hnodes : ∀ c, c ∈ (b.freeWalk (b.heightLimit cs) cs.toList).visits.map Visit.node ↔
      c ∈ (b.closure cs).configurations := by
    intro c
    rw [mem_closure_iff, freeWalk]
    exact Graph.mem_visits_explore
  rw [closure]
  simp only [List.any_eq_true, decide_eq_true_eq]
  constructor
  · rintro ⟨v, hv, d, hd, hlt⟩
    exact ⟨v.node, (hnodes _).1 (List.mem_map.2 ⟨v, hv, rfl⟩), d, (hedges v hv d).1 hd, hlt⟩
  · rintro ⟨c, hc, d, hstep, hlt⟩
    rcases List.mem_map.1 ((hnodes c).2 hc) with ⟨v, hv, rfl⟩
    exact ⟨v, hv, d, (hedges v hv d).2 hstep, hlt⟩

/-- Unless it is truncated, a closure holds all that epsilon rules reach. -/
theorem mem_closure_or_truncated (h : d ∈ freeClosure b.rules cs) :
    d ∈ (b.closure cs).configurations ∨ (b.closure cs).truncated = true := by
  rcases h with ⟨c, hc, hreach⟩
  -- What is the first on the way not to be a member is too tall.
  induction hreach with
  | refl => exact .inl (mem_closure_of_mem hc)
  | @tail m d _ hstep ih =>
      rcases ih with hm | htruncated
      · by_cases hle : d.stack.height ≤ b.heightLimit cs
        · exact .inl (mem_closure_of_step hm hstep hle)
        · exact .inr (truncated_eq_true_iff.2 ⟨m, hm, d, hstep, Nat.lt_of_not_le hle⟩)
      · exact .inr htruncated

theorem mem_closure_of_complete (hcomplete : (b.closure cs).truncated = false)
    (h : d ∈ freeClosure b.rules cs) : d ∈ (b.closure cs).configurations := by
  apply (mem_closure_or_truncated h).resolve_right
  rw [hcomplete]
  exact Bool.false_ne_true

/-- A closure is truncated exactly if epsilon rules reach a stack that is too tall. -/
theorem truncated_iff : (b.closure cs).truncated = true ↔
    ∃ d ∈ freeClosure b.rules cs, b.heightLimit cs < d.stack.height := by
  constructor
  · intro htruncated
    rcases truncated_eq_true_iff.1 htruncated with ⟨c, hc, d, hstep, hlt⟩
    rcases mem_freeClosure_of_mem_closure hc with ⟨s, hs, hreach⟩
    exact ⟨d, ⟨s, hs, hreach.tail hstep⟩, hlt⟩
  · rintro ⟨d, hd, hlt⟩
    apply (mem_closure_or_truncated hd).resolve_left
    intro hmem
    have hle := height_le_of_mem_closure hmem
    omega

/-- Only a finite closure can be complete, and it is. -/
theorem finite_iff_not_truncated :
    (freeClosure b.rules cs).Finite ↔ (b.closure cs).truncated = false := by
  constructor
  · intro hfinite
    rw [Bool.eq_false_iff, ne_eq, truncated_iff]
    rintro ⟨d, hd, hlt⟩
    have hle := height_le_of_finite hfinite hd
    omega
  · intro hcomplete
    apply (b.closure cs).configurations.toList.finite_toSet.subset
    intro d hd
    exact mem_closure_of_complete hcomplete hd

/-- A closure is warned of if it is truncated, and nothing is recorded otherwise. -/
theorem recordsOf_noteClosure (closure : Closure S) (log : Log) (level : Level) :
    (noteClosure closure log).recordsOf level = log.recordsOf level ++
      if closure.truncated = true ∧ level = .warn ∧ log.keeps .warn = true then
        [⟨.warn, truncationText closure.limit⟩] else [] := by
  unfold noteClosure
  by_cases htruncated : closure.truncated = true
  · simp only [htruncated, if_true, true_and, Log.recordsOf_note_eq]
  · rw [if_neg htruncated, if_neg fun hall => htruncated hall.1, List.append_nil]

/-- The bound on heights is exact. What epsilon rules reach is finite exactly if no
    stack in it exceeds the limit. If it is finite, the closure is all of it, and
    nothing is recorded. If it is infinite, the closure holds the given configurations
    and others that are reached, and the only record is a warning, which is made if
    warnings are kept. -/
theorem closureNoting_exact (b : Rulebook S) (cs : SortedSet (Configuration S)) (log : Log) :
    ((freeClosure b.rules cs).Finite ↔
      ∀ d ∈ freeClosure b.rules cs, d.stack.height ≤ b.heightLimit cs) ∧
    ((freeClosure b.rules cs).Finite →
      (∀ d, d ∈ (b.closureNoting cs log).1 ↔ d ∈ freeClosure b.rules cs) ∧
      (b.closureNoting cs log).2 = log) ∧
    ((freeClosure b.rules cs).Infinite →
      (∀ c ∈ cs, c ∈ (b.closureNoting cs log).1) ∧
      (∀ d ∈ (b.closureNoting cs log).1, d ∈ freeClosure b.rules cs) ∧
      ∀ level, (b.closureNoting cs log).2.recordsOf level = log.recordsOf level ++
        if level = .warn ∧ log.keeps .warn = true then
          [⟨.warn, truncationText (b.heightLimit cs)⟩] else []) := by
  have hset : (b.closureNoting cs log).1 = (b.closure cs).configurations := rfl
  have hlog : (b.closureNoting cs log).2 = noteClosure (b.closure cs) log := rfl
  have hlimit : (b.closure cs).limit = b.heightLimit cs := rfl
  rw [hset, hlog]
  refine ⟨⟨fun hfinite d hd => height_le_of_finite hfinite hd, fun hall => ?_⟩,
    fun hfinite => ?_, fun hinfinite => ?_⟩
  · rw [finite_iff_not_truncated, Bool.eq_false_iff, ne_eq, truncated_iff]
    rintro ⟨d, hd, hlt⟩
    have hle := hall d hd
    omega
  · have hcomplete := finite_iff_not_truncated.1 hfinite
    refine ⟨fun d => ⟨mem_freeClosure_of_mem_closure, mem_closure_of_complete hcomplete⟩, ?_⟩
    rw [noteClosure, hcomplete, if_neg Bool.false_ne_true]
  · have htruncated : (b.closure cs).truncated = true := by
      rw [← Bool.not_eq_false, ← finite_iff_not_truncated]
      exact hinfinite
    refine ⟨fun c hc => mem_closure_of_mem hc, fun d hd => mem_freeClosure_of_mem_closure hd,
      fun level => ?_⟩
    rw [recordsOf_noteClosure, hlimit]
    simp only [htruncated, true_and]

/-- Rules that put a symbol on the stack again and again, and one that does so once. -/
def growing : Rulebook Nat :=
  .ofRules [⟨1, .epsilon, 1, '$', ['a', '$']⟩, ⟨1, .epsilon, 1, 'a', ['a', 'a']⟩,
    ⟨2, .epsilon, 3, '$', ['a', '$']⟩]

/-- With three keys and a rise of one, a stack of one symbol may become one of four. Where
    that is not the end of it there is one warning, and else none. -/
theorem closureNoting_exact_growing :
    (freeClosure growing.rules (.singleton (.of 1 (.ofList ['$'])))).Infinite ∧
    (growing.closureNoting (.singleton (.of 1 (.ofList ['$']))) (.empty (some .warn))).2.recordsOf
      .warn = [⟨.warn, truncationText 4⟩] ∧
    (freeClosure growing.rules (.singleton (.of 2 (.ofList ['$'])))).Finite ∧
    (growing.closureNoting (.singleton (.of 2 (.ofList ['$']))) (.empty (some .warn))).2.recordsOf
      .warn = [] := by
  have hinfinite : (freeClosure growing.rules (.singleton (.of 1 (.ofList ['$'])))).Infinite := by
    have htruncated :
        (growing.closure (.singleton (.of 1 (.ofList ['$'])))).truncated = true := by cbv
    intro hfinite
    rw [finite_iff_not_truncated.1 hfinite] at htruncated
    cases htruncated
  have hfinite : (freeClosure growing.rules (.singleton (.of 2 (.ofList ['$'])))).Finite := by
    have hcomplete :
        (growing.closure (.singleton (.of 2 (.ofList ['$'])))).truncated = false := by cbv
    exact finite_iff_not_truncated.2 hcomplete
  have hlimit : growing.heightLimit (.singleton (.of 1 (.ofList ['$']))) = 4 := by cbv
  rcases closureNoting_exact growing (.singleton (.of 1 (.ofList ['$']))) (.empty (some .warn)) with
    ⟨_, _, hwarn⟩
  rcases closureNoting_exact growing (.singleton (.of 2 (.ofList ['$']))) (.empty (some .warn)) with
    ⟨_, hsilent, _⟩
  refine ⟨hinfinite, ?_, hfinite, ?_⟩
  · rw [(hwarn hinfinite).2.2 .warn, hlimit]
    rfl
  · rw [(hsilent hfinite).2]
    rfl

end Rulebook

end Npda

end WordAutomata
