import WordAutomata.Proofs.PatternAutomata

/-!
# States of Compiled Patterns

A compiled pattern has the states that the supply handed out while it was compiled, and
no others. How many these are depends on the pattern alone, so their numbers are a range
that starts where the supply stood.

That a fragment has no other states is told with the words of fragments. Here the question
is whether a state can be lost. Joining two fragments leaves the accept states of the first
one out, and the start of the second one is no longer a start. Both are on a rule that was
added, which needs the first fragment to accept somewhere: the rules that join the two
leave from its accept states, and without any the start of the second fragment would be on
no rule. So the induction carries along that there always are accept states.

The parts of a pattern have addresses, which say which operand to take on each level. Two
parts of which neither is inside the other were compiled one after the other, and their
ranges do not overlap.

## Main definitions

* `Pattern.size`: How many states a pattern takes.
* `Fragment.Has`: The states in a fragment.
* `Fragment.Fills`: The states in a fragment are those of a range.
* `Pattern.Part`: A part of a pattern, with the supply at which it is compiled.
* `Pattern.Part.at?`: The part at an address.
* `Pattern.Part.Inside`: A part that has its states and rules in another one.

## Theorems

* `Fragment.Fills.followedBy`, `either`, `looped`: Joined fragments lose no states.
* `Pattern.next_compile`, `fills_compile`, `fills_range`: The states of a compiled pattern.
* `Pattern.Part.inside_of_at?`: The parts of a part.
* `Pattern.Part.ranges_apart`: Parts of which neither is a part of the other.
* `Pattern.compile_takes_range`: What compiling takes from the supply, and gives to whom.
-/

namespace WordAutomata

/-- How many states a pattern takes. -/
def Pattern.size : Pattern → Nat
  | empty => 1
  | literal _ => 2
  | concatenate p q => p.size + q.size
  | choose p q => p.size + q.size + 1
  | repeated p => p.size + 1

/-- A range that is cut in two has its numbers in one of the halves. -/
theorem Index.Between.cut {tag : Type} {low high : Nat} {i : Index tag} (h : i.Between low high)
    (mid : Nat) : i.Between low mid ∨ i.Between mid high := by
  unfold Index.Between at h ⊢
  omega

/-- The last number of a range is the only one that a shorter range lacks. -/
theorem Index.Between.init_or_last {tag : Type} {low high : Nat} {i : Index tag}
    (h : i.Between low (high + 1)) : i.Between low high ∨ i = ⟨high⟩ := by
  rcases h.cut high with h | h
  · exact .inl h
  · refine .inr (Index.eq_of_value_eq ?_)
    exact Nat.le_antisymm (Nat.le_of_lt_succ h.2) h.1

namespace Fragment

variable {f a b : Fragment} {s i : StateIndex} {low mid high : Nat}

/-- The state is where the fragment starts, or one where it accepts, or at an end of
    one of its rules. -/
def Has (f : Fragment) (i : StateIndex) : Prop :=
  i = f.start ∨ i ∈ f.accepting ∨ ∃ r ∈ f.rules.toList, i = r.source ∨ i = r.target

theorem has_source {r : Finite.Rule StateIndex} (hr : r ∈ f.rules.toList) : f.Has r.source :=
  .inr (.inr ⟨r, hr, .inl rfl⟩)

theorem has_target {r : Finite.Rule StateIndex} (hr : r ∈ f.rules.toList) : f.Has r.target :=
  .inr (.inr ⟨r, hr, .inr rfl⟩)

theorem Within.between (h : f.Within low high) (hi : f.Has i) : i.Between low high := by
  rcases hi with rfl | hi | ⟨r, hr, rfl | rfl⟩
  · exact h.start
  · exact h.accepting i hi
  · exact h.source r hr
  · exact h.target r hr

/-! ## No state is lost -/

theorem Has.followedBy_left (h : a.Has i) : (a.followedBy b).Has i := by
  rcases h with rfl | hi | ⟨r, hr, hend⟩
  · exact .inl rfl
  · -- It does not accept any more, but a rule leads on from it.
    exact has_source (mem_rules_followedBy.2 (.inr (.inr ⟨i, hi, rfl⟩)))
  · exact .inr (.inr ⟨r, mem_rules_followedBy.2 (.inl hr), hend⟩)

theorem Has.followedBy_right (haccepts : a.accepting ≠ []) (h : b.Has i) :
    (a.followedBy b).Has i := by
  rcases h with rfl | hi | ⟨r, hr, hend⟩
  · -- The second start is kept by the rules that lead to it.
    rcases List.exists_mem_of_ne_nil _ haccepts with ⟨e, he⟩
    exact has_target (mem_rules_followedBy.2 (.inr (.inr ⟨e, he, rfl⟩)))
  · exact .inr (.inl hi)
  · exact .inr (.inr ⟨r, mem_rules_followedBy.2 (.inr (.inl hr)), hend⟩)

theorem Has.either_left (h : a.Has i) : (either s a b).Has i := by
  rcases h with rfl | hi | ⟨r, hr, hend⟩
  · exact has_target (mem_rules_either.2 (.inr (.inr (.inl rfl))))
  · exact .inr (.inl (List.mem_append_left _ hi))
  · exact .inr (.inr ⟨r, mem_rules_either.2 (.inl hr), hend⟩)

theorem Has.either_right (h : b.Has i) : (either s a b).Has i := by
  rcases h with rfl | hi | ⟨r, hr, hend⟩
  · exact has_target (mem_rules_either.2 (.inr (.inr (.inr rfl))))
  · exact .inr (.inl (List.mem_append_right _ hi))
  · exact .inr (.inr ⟨r, mem_rules_either.2 (.inr (.inl hr)), hend⟩)

theorem Has.looped (h : a.Has i) : (looped s a).Has i := by
  rcases h with rfl | hi | ⟨r, hr, hend⟩
  · exact has_target (mem_rules_looped.2 (.inr (.inr rfl)))
  · exact .inr (.inl (mem_accepting_looped.2 (.inl hi)))
  · exact .inr (.inr ⟨r, mem_rules_looped.2 (.inl hr), hend⟩)

/-! ## Fragments that fill a range -/

/-- The states in a fragment are those of a range, and it accepts in some of them. -/
structure Fills (f : Fragment) (low high : Nat) : Prop where
  /-- The start, the accept states and both ends of each rule are in the range. -/
  within : f.Within low high
  /-- Each state of the range is the start, an accept state, or at an end of a rule. -/
  has : ∀ i : StateIndex, i.Between low high → f.Has i
  accepts : f.accepting ≠ []
  nodup : f.accepting.Nodup

theorem fills_point (n : Nat) : (point ⟨n⟩).Fills n (n + 1) where
  within := within_point ⟨Nat.le_refl n, Nat.lt_succ_self n⟩
  has i hi := by
    rcases hi.init_or_last with hi | rfl
    · exact absurd hi.2 (Nat.not_lt_of_le hi.1)
    · exact .inl rfl
  accepts := List.cons_ne_nil _ _
  nodup := List.nodup_singleton _

theorem fills_edge (n : Nat) (c : Char) : (edge ⟨n⟩ c ⟨n + 1⟩).Fills n (n + 2) where
  within := within_edge ⟨Nat.le_refl n, Nat.lt_add_of_pos_right Nat.two_pos⟩
    ⟨Nat.le_succ n, Nat.lt_succ_self (n + 1)⟩
  has i hi := by
    rcases hi.init_or_last with hi | rfl
    · rcases hi.init_or_last with hi | rfl
      · exact absurd hi.2 (Nat.not_lt_of_le hi.1)
      · exact .inl rfl
    · exact .inr (.inl (List.mem_singleton_self _))
  accepts := List.cons_ne_nil _ _
  nodup := List.nodup_singleton _

theorem Fills.followedBy (ha : a.Fills low mid) (hb : b.Fills mid high) :
    (a.followedBy b).Fills low high where
  within := within_followedBy ha.within hb.within
  has i hi := by
    rcases hi.cut mid with hi | hi
    · exact (ha.has i hi).followedBy_left
    · exact (hb.has i hi).followedBy_right ha.accepts
  accepts := hb.accepts
  nodup := hb.nodup

theorem Fills.either (ha : a.Fills low mid) (hb : b.Fills mid high) :
    (either ⟨high⟩ a b).Fills low (high + 1) where
  within := within_either_next ha.within hb.within
  has i hi := by
    rcases hi.init_or_last with hi | rfl
    · rcases hi.cut mid with hi | hi
      · exact (ha.has i hi).either_left
      · exact (hb.has i hi).either_right
    · exact .inl rfl
  accepts := List.append_ne_nil_of_left_ne_nil ha.accepts _
  nodup := by
    refine List.nodup_append.2 ⟨ha.nodup, hb.nodup, fun s hs t ht heq => ?_⟩
    have hbetween := hb.within.accepting t ht
    rw [← heq] at hbetween
    exact not_between_of_between hbetween (ha.within.accepting s hs)

theorem Fills.looped (ha : a.Fills low high) : (looped ⟨high⟩ a).Fills low (high + 1) where
  within := within_looped_next ha.within
  has i hi := by
    rcases hi.init_or_last with hi | rfl
    · exact (ha.has i hi).looped
    · exact .inl rfl
  accepts := List.append_ne_nil_of_left_ne_nil ha.accepts _
  nodup := by
    refine List.nodup_append.2 ⟨ha.nodup, List.nodup_singleton _, fun s hs t ht heq => ?_⟩
    have hbetween := ha.within.accepting s hs
    rw [heq, List.mem_singleton.1 ht] at hbetween
    exact Nat.lt_irrefl high hbetween.2

end Fragment

namespace Pattern

theorem next_compile (p : Pattern) (supply : StateSupply) :
    (p.compile supply).2.next = supply.next + p.size := by
  induction p generalizing supply with
  | empty => rfl
  | literal c => rfl
  | concatenate p q ihp ihq =>
      have hq := ihq (p.compile supply).2
      rw [ihp supply] at hq
      exact hq.trans (Nat.add_assoc _ _ _)
  | choose p q ihp ihq =>
      have hq := ihq (p.compile supply).2
      rw [ihp supply] at hq
      exact congrArg Nat.succ (hq.trans (Nat.add_assoc _ _ _))
  | repeated p ih => exact congrArg Nat.succ (ih supply)

/-- A compiled pattern has all the states that it took from the supply. -/
theorem fills_compile (p : Pattern) (supply : StateSupply) :
    (p.compile supply).1.Fills supply.next (p.compile supply).2.next := by
  induction p generalizing supply with
  | empty => exact Fragment.fills_point supply.next
  | literal c => exact Fragment.fills_edge supply.next c
  | concatenate p q ihp ihq => exact (ihp supply).followedBy (ihq (p.compile supply).2)
  | choose p q ihp ihq => exact (ihp supply).either (ihq (p.compile supply).2)
  | repeated p ih => exact (ih supply).looped

/-- They are as many as the size of the pattern says. -/
theorem fills_range (p : Pattern) (supply : StateSupply) :
    (p.compile supply).1.Fills supply.next (supply.next + p.size) := by
  rw [← next_compile]
  exact fills_compile p supply

/-! ## Parts -/

/-- A pattern with the supply from which it takes its states. -/
structure Part where
  pattern : Pattern
  supply : StateSupply

namespace Part

/-- What the pattern is compiled to. -/
def fragment (t : Part) : Fragment := (t.pattern.compile t.supply).1

/-- The number behind those of its states. -/
def stop (t : Part) : Nat := (t.pattern.compile t.supply).2.next

/-- The parts that are compiled first and then joined, in order. -/
def operands : Part → List Part
  | ⟨empty, _⟩ => []
  | ⟨literal _, _⟩ => []
  | ⟨concatenate p q, supply⟩ => [⟨p, supply⟩, ⟨q, (p.compile supply).2⟩]
  | ⟨choose p q, supply⟩ => [⟨p, supply⟩, ⟨q, (p.compile supply).2⟩]
  | ⟨repeated p, supply⟩ => [⟨p, supply⟩]

/-- The part at an address, which says what operand to take on each level. -/
def at? : Part → List Nat → Option Part
  | t, [] => some t
  | t, i :: address => t.operands[i]?.bind fun u => u.at? address

variable {t u v : Part}

theorem fills_fragment (t : Part) : t.fragment.Fills t.supply.next t.stop :=
  fills_compile t.pattern t.supply

theorem next_le_stop (t : Part) : t.supply.next ≤ t.stop := t.fills_fragment.within.le

/-- Operands take their states one after the other. -/
theorem pairwise_operands (t : Part) :
    t.operands.Pairwise fun u v => u.stop ≤ v.supply.next := by
  rcases t with ⟨p, supply⟩
  cases p with
  | empty => exact .nil
  | literal c => exact .nil
  | concatenate p q => exact List.pairwise_pair.2 (Nat.le_refl _)
  | choose p q => exact List.pairwise_pair.2 (Nat.le_refl _)
  | repeated p => exact List.pairwise_singleton _ _

/-- A part has its states in the range of another one, and its rules among those of the
    other one. -/
structure Inside (u t : Part) : Prop where
  low : t.supply.next ≤ u.supply.next
  high : u.stop ≤ t.stop
  rules : ∀ r ∈ u.fragment.rules.toList, r ∈ t.fragment.rules.toList

theorem Inside.refl (t : Part) : t.Inside t := ⟨Nat.le_refl _, Nat.le_refl _, fun _ hr => hr⟩

theorem Inside.trans (huv : u.Inside v) (hvt : v.Inside t) : u.Inside t :=
  ⟨hvt.low.trans huv.low, huv.high.trans hvt.high, fun r hr => hvt.rules r (huv.rules r hr)⟩

/-- Joining keeps the rules of the operands as they are. -/
theorem inside_of_mem_operands (h : u ∈ t.operands) : u.Inside t := by
  rcases t with ⟨p, supply⟩
  cases p with
  | empty => exact absurd h List.not_mem_nil
  | literal c => exact absurd h List.not_mem_nil
  | concatenate p q =>
      rcases List.mem_pair.1 h with rfl | rfl
      · refine ⟨Nat.le_refl _, next_le_stop ⟨q, _⟩, fun r hr => ?_⟩
        exact Fragment.mem_rules_followedBy.2 (.inl hr)
      · refine ⟨next_le_stop ⟨p, _⟩, Nat.le_refl _, fun r hr => ?_⟩
        exact Fragment.mem_rules_followedBy.2 (.inr (.inl hr))
  | choose p q =>
      rcases List.mem_pair.1 h with rfl | rfl
      · refine ⟨Nat.le_refl _, Nat.le_succ_of_le (next_le_stop ⟨q, _⟩), fun r hr => ?_⟩
        exact Fragment.mem_rules_either.2 (.inl hr)
      · refine ⟨next_le_stop ⟨p, _⟩, Nat.le_succ _, fun r hr => ?_⟩
        exact Fragment.mem_rules_either.2 (.inr (.inl hr))
  | repeated p =>
      rw [List.mem_singleton.1 h]
      refine ⟨Nat.le_refl _, Nat.le_succ _, fun r hr => ?_⟩
      exact Fragment.mem_rules_looped.2 (.inl hr)

theorem at?_cons {i : Nat} {address : List Nat} :
    t.at? (i :: address) = some v ↔ ∃ u, t.operands[i]? = some u ∧ u.at? address = some v :=
  Option.bind_eq_some_iff

theorem inside_of_at? {address : List Nat} (h : t.at? address = some u) : u.Inside t := by
  induction address generalizing t with
  | nil =>
      injection h with htu
      exact htu ▸ .refl t
  | cons i address ih =>
      rcases at?_cons.1 h with ⟨v, hv, hu⟩
      exact (ih hu).trans (inside_of_mem_operands (List.mem_of_getElem? hv))

theorem operands_apart {i j : Nat} (hu : t.operands[i]? = some u) (hv : t.operands[j]? = some v)
    (hij : i < j) : u.stop ≤ v.supply.next := by
  rcases List.getElem?_eq_some_iff.1 hu with ⟨hi, rfl⟩
  rcases List.getElem?_eq_some_iff.1 hv with ⟨hj, rfl⟩
  exact List.pairwise_iff_getElem.1 t.pairwise_operands i j hi hj hij

/-- Two addresses of which neither begins the other lead the same way for a while, and then
    to different operands. The ranges of these are apart, and so are those of the parts. -/
theorem ranges_apart {address other : List Nat} (hu : t.at? address = some u)
    (hv : t.at? other = some v) (hinside : ¬ address <+: other) (hinside' : ¬ other <+: address) :
    u.stop ≤ v.supply.next ∨ v.stop ≤ u.supply.next := by
  induction address generalizing t other with
  | nil => exact absurd List.nil_prefix hinside
  | cons i address ih =>
      cases other with
      | nil => exact absurd List.nil_prefix hinside'
      | cons j other =>
          rcases at?_cons.1 hu with ⟨x, hx, hu⟩
          rcases at?_cons.1 hv with ⟨y, hy, hv⟩
          rcases Nat.lt_trichotomy i j with hij | rfl | hij
          · have hapart := operands_apart hx hy hij
            exact .inl ((inside_of_at? hu).high.trans (hapart.trans (inside_of_at? hv).low))
          · -- They still lead the same way.
            cases hx.symm.trans hy
            refine ih hu hv (fun h => hinside ?_) (fun h => hinside' ?_)
            · exact List.cons_prefix_cons.2 ⟨rfl, h⟩
            · exact List.cons_prefix_cons.2 ⟨rfl, h⟩
          · have hapart := operands_apart hy hx hij
            exact .inr ((inside_of_at? hv).high.trans (hapart.trans (inside_of_at? hu).low))

/-- Parts that are not inside one another have no state in common. -/
theorem not_has_both {address other : List Nat} (hu : t.at? address = some u)
    (hv : t.at? other = some v) (hinside : ¬ address <+: other) (hinside' : ¬ other <+: address)
    (i : StateIndex) : ¬ (u.fragment.Has i ∧ v.fragment.Has i) := by
  rintro ⟨hiu, hiv⟩
  have hbetween := u.fills_fragment.within.between hiu
  have hbetween' := v.fills_fragment.within.between hiv
  have hapart := ranges_apart hu hv hinside hinside'
  unfold Index.Between at hbetween hbetween'
  omega

end Part

/-- The second operand of a choice takes its state after the two of the first one. -/
example : Part.at? ⟨.repeated (.choose (.literal 'a') .empty), ⟨0⟩⟩ [0, 1] = some ⟨.empty, ⟨2⟩⟩ :=
  rfl

/-! ## The automaton of a pattern -/

theorem mem_states_toNfa_iff {p : Pattern} {i : StateIndex} :
    i ∈ p.toNfa.states ↔ (p.compile .fresh).1.Has i := by
  rw [Nfa.states, Finite.mem_states, mem_accepting_toNfa, Fragment.Has, or_congr_right or_comm]
  rfl

theorem mem_states_toNfa_iff_lt_size {p : Pattern} {i : StateIndex} :
    i ∈ p.toNfa.states ↔ i.value < p.size := by
  have hfills : (p.compile .fresh).1.Fills 0 p.size := by
    simpa only [StateSupply.fresh, Nat.zero_add] using p.fills_range .fresh
  rw [mem_states_toNfa_iff]
  exact ⟨fun hi => (hfills.within.between hi).2, fun hi => hfills.has i ⟨Nat.zero_le _, hi⟩⟩

/-- A supply at `n` hands out as many states to a pattern as its size says, which are those
    from `n` on. The fragment that is made with them has its start, its accept states and
    the ends of its rules among them, and none of them is left over. It accepts somewhere,
    and no accept state is listed twice. It keeps the rules of every part of the pattern,
    and two parts of which neither is inside the other have no state in common.

    So the automaton of a pattern has the states from zero on, as many as the size of the
    pattern, and its characters are the literals in the pattern. -/
theorem compile_takes_range (p : Pattern) :
    (∀ n, (p.compile ⟨n⟩).2.next = n + p.size ∧ (p.compile ⟨n⟩).1.Fills n (n + p.size) ∧
      (∀ address u, Part.at? ⟨p, ⟨n⟩⟩ address = some u →
        ∀ r ∈ u.fragment.rules.toList, r ∈ (p.compile ⟨n⟩).1.rules.toList) ∧
      ∀ address other u v, Part.at? ⟨p, ⟨n⟩⟩ address = some u → Part.at? ⟨p, ⟨n⟩⟩ other = some v →
        ¬ address <+: other → ¬ other <+: address →
          ∀ i, ¬ (u.fragment.Has i ∧ v.fragment.Has i)) ∧
    (∀ i, i ∈ p.toNfa.states ↔ i.value < p.size) ∧
    p.toNfa.rulebook.alphabet = .ofList p.literals := by
  refine ⟨fun n => ⟨p.next_compile ⟨n⟩, p.fills_range ⟨n⟩, fun address u hu => ?_, ?_⟩,
    fun i => mem_states_toNfa_iff_lt_size, p.alphabet_toNfa⟩
  · exact (Part.inside_of_at? hu).rules
  · intro address other u v hu hv hinside hinside'
    exact Part.not_has_both hu hv hinside hinside'

end Pattern

end WordAutomata
