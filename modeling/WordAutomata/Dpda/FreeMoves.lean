import WordAutomata.Dpda.Basic

/-!
# Endless Epsilon Runs

A deterministic pushdown automaton follows epsilon rules for as long as one
applies, which may be forever. `freeRun` follows them and finds out.

It remembers, for each rule taken, the height of the stack at that moment and
the key of the rule, which is its source with what it pops. Marks that are
higher than the stack is now are forgotten: the stack has been shorter since.
If a rule is to be taken whose key is still remembered, then the stack never
fell below the height of the mark in between. What lies below has not been
looked at, so the same rules can be taken again and again, and the run is
endless. The automaton gets stuck there.

The loop itself always ends. Count, for each height up to that of the stack,
the keys that no mark at or below the height has. A step leaves the counts
below its height alone, and lowers all the others by one or more, of which
there may now be as many more as the rule pushes. With weights that are powers
of a large enough base the sum goes down.

## Main definitions

* `Dpda.FreeRun`: Where following epsilon rules ended, and how.
* `Dpda.Rulebook.freeRun`: Following epsilon rules.
* `Dpda.Rulebook.freePath`: The configurations on the way.

## Theorems

* `Dpda.potential_mark_lt`: A step lowers the weighted sum.
-/

universe u

namespace WordAutomata

namespace Dpda

variable {S : Type u}

/-- What makes an epsilon rule apply: its source and what it pops. -/
def key (r : Pushdown.Rule S) : S × Char := (r.source, r.popped)

/-- The key of a rule that was taken, with the height of the stack before. -/
structure Mark (S : Type u) where
  height : Nat
  key : S × Char

variable [Ordered S]

/-- Whether a key was marked at or below a height. -/
def markedBelow (marks : List (Mark S)) (height : Nat) (k : S × Char) : Bool :=
  marks.any fun m => decide (m.height ≤ height) && decide (m.key = k)

/-- The keys of a list that were not marked at or below a height, counted with
    repetitions. -/
def unmarked (keys : List (S × Char)) (marks : List (Mark S)) (height : Nat) : Nat :=
  keys.countP fun k => !markedBelow marks height k

/-- The unmarked keys of all heights up to the given one, weighted by powers of
    a base. -/
def potential (keys : List (S × Char)) (base : Nat) (marks : List (Mark S)) : Nat → Nat
  | 0 => 0
  | height + 1 =>
    potential keys base marks height + base.pow (unmarked keys marks (height + 1))

/-- The marks that are not higher than the stack, down to the first such one. -/
def recent (marks : List (Mark S)) (height : Nat) : List (Mark S) :=
  marks.dropWhile fun m => height < m.height

theorem markedBelow_recent {marks : List (Mark S)} {height i : Nat} (h : i ≤ height)
    (k : S × Char) : markedBelow (recent marks height) i k = markedBelow marks i k := by
  induction marks with
  | nil => rfl
  | cons m marks ih =>
    unfold recent
    rw [List.dropWhile_cons]
    split
    · rename_i hm
      have hm : height < m.height := by simpa using hm
      have : ¬ m.height ≤ i := by omega
      simpa [markedBelow, recent, this] using ih
    · rfl

theorem unmarked_mark_of_lt {keys : List (S × Char)} {marks : List (Mark S)} {height i : Nat}
    (h : i < height) (k : S × Char) :
    unmarked keys (⟨height, k⟩ :: recent marks height) i = unmarked keys marks i := by
  unfold unmarked
  congr 1
  funext x
  have hle : ¬ height ≤ i := by omega
  have : markedBelow (recent marks height) i x = markedBelow marks i x :=
    markedBelow_recent (Nat.le_of_lt h) x
  simp only [markedBelow, List.any_cons] at this ⊢
  simp [hle, this]

/-- A key that was not remembered and now is leaves fewer keys unmarked, at its
    own height and above. -/
theorem unmarked_mark_lt {keys : List (S × Char)} {marks : List (Mark S)} {height i : Nat}
    {k : S × Char} (hk : k ∈ keys) (hnew : (recent marks height).all fun m => m.key ≠ k)
    (h : height ≤ i) :
    unmarked keys (⟨height, k⟩ :: recent marks height) i + 1 ≤ unmarked keys marks height := by
  have hold : markedBelow marks height k = false := by
    rw [← markedBelow_recent (Nat.le_refl height)]
    simp only [markedBelow, List.any_eq_false, List.all_eq_true, decide_eq_true_eq] at hnew ⊢
    intro m hm
    simp [hnew m hm]
  have hmono : ∀ x, markedBelow marks height x = true →
      markedBelow (⟨height, k⟩ :: recent marks height) i x = true := fun x hx => by
    rw [← markedBelow_recent (Nat.le_refl height)] at hx
    simp only [markedBelow, List.any_cons, List.any_eq_true, Bool.or_eq_true] at hx ⊢
    obtain ⟨m, hm, hmx⟩ := hx
    refine .inr ⟨m, hm, ?_⟩
    simp only [Bool.and_eq_true, decide_eq_true_eq] at hmx ⊢
    exact ⟨by omega, hmx.2⟩
  obtain ⟨front, back, rfl⟩ := List.append_of_mem hk
  have mono : ∀ l : List (S × Char),
      l.countP (fun x => !markedBelow (⟨height, k⟩ :: recent marks height) i x) ≤
        l.countP fun x => !markedBelow marks height x :=
    fun l => List.countP_mono_left fun x _ hx => by
      cases hc : markedBelow marks height x with
      | false => rfl
      | true => simp [hmono x hc] at hx
  have hself : markedBelow (⟨height, k⟩ :: recent marks height) i k = true := by
    simp [markedBelow, h]
  have h₁ := mono front
  have h₂ := mono back
  simp only [unmarked, List.countP_append, List.countP_cons, hself, hold]
  simp
  omega

theorem potential_congr {keys : List (S × Char)} {base : Nat} {marks marks' : List (Mark S)}
    {height : Nat} (h : ∀ i, i ≤ height → unmarked keys marks' i = unmarked keys marks i) :
    potential keys base marks' height = potential keys base marks height := by
  induction height with
  | zero => rfl
  | succ n ih =>
    rw [potential, potential, ih fun i hi => h i (by omega), h (n + 1) (by omega)]

theorem potential_add_le {keys : List (S × Char)} {base n : Nat} {marks : List (Mark S)}
    (hb : 0 < base) (height more : Nat) (h : ∀ i, height < i → unmarked keys marks i ≤ n) :
    potential keys base marks (height + more) ≤
      potential keys base marks height + more * base.pow n := by
  induction more with
  | zero => simp
  | succ m ih =>
    have : base.pow _ ≤ base.pow n := Nat.pow_le_pow_right hb (h (height + m + 1) (by omega))
    rw [← Nat.add_assoc, potential, Nat.add_mul]
    omega

/-- Taking a rule whose key is not remembered lowers the potential: below the
    height of the stack nothing changes, and the summand of that height makes
    way for smaller ones, of which there are fewer than the base. -/
theorem potential_mark_lt {keys : List (S × Char)} {base : Nat} {marks : List (Mark S)}
    {height pushed : Nat} {k : S × Char} (hk : k ∈ keys)
    (hnew : (recent marks (height + 1)).all fun m => m.key ≠ k) (hp : pushed < base) :
    potential keys base (⟨height + 1, k⟩ :: recent marks (height + 1)) (height + pushed) <
      potential keys base marks (height + 1) := by
  have hb : 0 < base := by omega
  have hlow : potential keys base (⟨height + 1, k⟩ :: recent marks (height + 1)) height =
      potential keys base marks height :=
    potential_congr fun i hi => unmarked_mark_of_lt (by omega) k
  -- The summand that makes way counts one key more than the new ones.
  have hpos := unmarked_mark_lt hk hnew (Nat.le_refl (height + 1))
  obtain ⟨n, hn⟩ : ∃ n, unmarked keys marks (height + 1) = n + 1 :=
    ⟨_, (Nat.succ_pred_eq_of_pos (by omega)).symm⟩
  have hle : ∀ i, height < i →
      unmarked keys (⟨height + 1, k⟩ :: recent marks (height + 1)) i ≤ n := fun i hi => by
    have := unmarked_mark_lt hk hnew (Nat.succ_le_of_lt hi)
    omega
  -- Each new summand is at most the base to the power of `n`, and there are fewer
  -- of them than the base.
  have hup := potential_add_le hb height pushed hle
  have hlt : pushed * base.pow n < base.pow (n + 1) := by
    have hpow : 0 < base.pow n := Nat.pow_pos hb
    show pushed * base.pow n < base.pow n * base
    rw [Nat.mul_comm]
    exact Nat.mul_lt_mul_of_pos_left hp hpow
  rw [potential, hn]
  omega

omit [Ordered S] in
theorem height_follow (r : Pushdown.Rule S) (c : Configuration S) :
    (r.follow c).stack.height = c.stack.height - 1 + r.pushed.length :=
  Nat.add_comm _ _

omit [Ordered S] in
theorem height_of_top? {s : Stack} {c : Char} (h : s.top? = some c) :
    s.height = s.height - 1 + 1 := by
  rw [Stack.top?] at h
  cases hs : s.symbols with
  | nil => simp [hs] at h
  | cons _ l => rw [s.height_eq, hs]; rfl

/-- Where following epsilon rules ended. -/
structure FreeRun (S : Type u) where
  /-- The configuration at the end. It is stuck if the run is endless. -/
  final : Configuration S
  /-- How many rules were taken. -/
  moves : Nat
  /-- The rule whose repetition showed that the run is endless. -/
  cycle? : Option (Pushdown.Rule S)

namespace Rulebook

/-- The keys of the epsilon rules. -/
def epsilonKeys (b : Rulebook S) : List (S × Char) :=
  (b.rules.filter fun r => r.symbol.isEpsilon).map key

/-- The length of the longest text that a rule pushes. -/
def longestPush (b : Rulebook S) : Nat := b.rules.foldr (fun r n => max r.pushed.length n) 0

theorem length_pushed_le {b : Rulebook S} {r : Pushdown.Rule S} (h : r ∈ b.rules) :
    r.pushed.length ≤ b.longestPush := by
  unfold longestPush
  generalize b.rules = rules at h
  induction rules with
  | nil => simp at h
  | cons s rules ih =>
    rw [List.foldr_cons]
    rcases List.mem_cons.1 h with rfl | h
    · exact Nat.le_max_left _ _
    · exact Nat.le_trans (ih h) (Nat.le_max_right _ _)

theorem key_mem_epsilonKeys {b : Rulebook S} {r : Pushdown.Rule S} (h : r ∈ b.rules)
    (hs : r.symbol = .epsilon) : key r ∈ b.epsilonKeys :=
  List.mem_map.2 ⟨r, List.mem_filter.2 ⟨h, by simp [hs, Symbol.isEpsilon]⟩, rfl⟩

/-- Follows epsilon rules, with the marks of those taken since the stack was
    last lower than their heights, and the number of all those taken. -/
def follow (b : Rulebook S) (c : Configuration S) (marks : List (Mark S)) (moves : Nat) :
    FreeRun S :=
  match h : b.rule? c .epsilon with
  | none => ⟨c, moves, none⟩
  | some r =>
    let remembered := recent marks c.stack.height
    if _hk : remembered.all fun m => m.key ≠ key r then
      b.follow (r.follow c) (⟨c.stack.height, key r⟩ :: remembered) (moves + 1)
    else ⟨c.stuck, moves, some r⟩
termination_by potential b.epsilonKeys (b.longestPush + 1) marks c.stack.height
decreasing_by
  obtain ⟨hr, happ⟩ := applies_of_rule? h
  simp only [Pushdown.Rule.applies, Bool.and_eq_true, decide_eq_true_eq] at happ
  have hheight := height_of_top? happ.1.2
  rw [height_follow, hheight, Nat.add_sub_cancel]
  refine potential_mark_lt (key_mem_epsilonKeys hr happ.2) ?_
    (Nat.lt_succ_of_le (length_pushed_le hr))
  rw [← hheight]
  exact _hk

/-- Follows epsilon rules from a configuration for as long as one applies. An
    endless run ends stuck. -/
def freeRun (b : Rulebook S) (c : Configuration S) : FreeRun S := b.follow c [] 0

/-- The configuration to which epsilon rules lead. -/
def freeMoves (b : Rulebook S) (c : Configuration S) : Configuration S := (b.freeRun c).final

/-- The configurations after taking one, two, and up to the given number of
    epsilon rules. -/
def freePath (b : Rulebook S) (c : Configuration S) : Nat → List (Configuration S)
  | 0 => []
  | n + 1 =>
    match b.rule? c .epsilon with
    | none => []
    | some r => r.follow c :: b.freePath (r.follow c) n

end Rulebook

end Dpda

end WordAutomata
