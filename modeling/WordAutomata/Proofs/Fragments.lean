import WordAutomata.Pattern.Thompson
import WordAutomata.Proofs.Paths
import Mathlib.Computability.Language

/-!
# Words of Fragments

A fragment stands for the words that its rules read on the way from its start to
one of its accept states. Joining fragments adds epsilon rules between them and
leaves their own rules as they are, so a path through the joined fragment has to
be cut into paths through the parts. What makes the cuts possible is that the
parts share no state. A rule whose source is in a part is a rule of that part, or
one of the few that were added.

`Path.stays` and `Path.leaves` are the two ways to use this. A set of states that
no rule leads out of confines a path to the rules within it. If rules do lead
out, from known states to one known state, then a path either is confined or
takes such a rule for a first time, and can be cut there.

A loop needs more than that, because its added rules lead back into the part
itself. There the path is followed from its start, and each time round splits a
word of the part off (`language_looped`).

## Main definitions

* `Index.Between`: A number in a range.
* `Fragment.Within`: All states of a fragment are in a range.
* `Fragment.language`: The words of a fragment.

## Theorems

* `Finite.Path.stays`: A path that cannot leave a set of states.
* `Finite.Path.leaves`: A path that can leave it by certain rules only.
* `Finite.Path.enters`: A path that has to leave its start by certain rules.
* `Fragment.language_followedBy`, `language_either`, `language_looped`: The words
  of joined fragments.
-/

universe u

namespace WordAutomata

/-- The number is in a range, whose upper end is left out. -/
def Index.Between {tag : Type} (low high : Nat) (i : Index tag) : Prop :=
  low ≤ i.value ∧ i.value < high

namespace Finite

variable {S : Type u} {rules part : List (Rule S)} {inside : S → Prop}

/-- A path that starts in a set of states out of which no rule leads takes only
    the rules within it. -/
theorem Path.stays (keep : ∀ r ∈ rules, inside r.source → r ∈ part ∧ inside r.target)
    {s t : S} {w : List Char} (h : Path rules s w t) (hs : inside s) :
    Path part s w t ∧ inside t := by
  induction h with
  | refl s => exact ⟨.refl s, hs⟩
  | free hr _ ih =>
      have hk := keep _ hr hs
      have hrest := ih hk.2
      exact ⟨.free hk.1 hrest.1, hrest.2⟩
  | read hr _ ih =>
      have hk := keep _ hr hs
      have hrest := ih hk.2
      exact ⟨.read hk.1 hrest.1, hrest.2⟩

/-- A path that starts in a set of states which can be left from certain states
    to a single one stays in the set, or can be cut where it first leaves. -/
theorem Path.leaves {exits : List S} {entry : S}
    (keep : ∀ r ∈ rules, inside r.source →
      (r ∈ part ∧ inside r.target) ∨ ∃ e ∈ exits, r = ⟨e, .epsilon, entry⟩)
    {s t : S} {w : List Char} (h : Path rules s w t) (hs : inside s) :
    (Path part s w t ∧ inside t) ∨
      ∃ e ∈ exits, ∃ u v, w = u ++ v ∧ Path part s u e ∧ Path rules entry v t := by
  induction h with
  | refl s => exact .inl ⟨.refl s, hs⟩
  | @free s m t w hr hrest ih =>
      rcases keep _ hr hs with ⟨hp, hm⟩ | ⟨e, he, heq⟩
      · rcases ih hm with hin | ⟨e, he, u, v, hw, hu, hv⟩
        · exact .inl ⟨.free hp hin.1, hin.2⟩
        · exact .inr ⟨e, he, u, v, hw, .free hp hu, hv⟩
      · -- The rule itself leaves, so nothing has been read before.
        injection heq with hse _ hme
        subst hse hme
        exact .inr ⟨s, he, [], w, rfl, .refl s, hrest⟩
  | @read s m t c w hr hrest ih =>
      rcases keep _ hr hs with ⟨hp, hm⟩ | ⟨e, he, heq⟩
      · rcases ih hm with hin | ⟨e, he, u, v, hw, hu, hv⟩
        · exact .inl ⟨.read hp hin.1, hin.2⟩
        · refine .inr ⟨e, he, c :: u, v, ?_, .read hp hu, hv⟩
          rw [hw, List.cons_append]
      · injection heq with _ hsym _
        exact absurd hsym (by simp only [reduceCtorEq, not_false_eq_true])

/-- A path from a state out of which only epsilon rules lead goes on from where one
    of them leads, unless it ends at once. -/
theorem Path.enters {entries : List S} {s t : S} {w : List Char}
    (hout : ∀ r ∈ rules, r.source = s → ∃ e ∈ entries, r = ⟨s, .epsilon, e⟩)
    (h : Path rules s w t) : (w = [] ∧ t = s) ∨ ∃ e ∈ entries, Path rules e w t := by
  cases h with
  | refl _ => exact .inl ⟨rfl, rfl⟩
  | free hr hrest =>
      rcases hout _ hr rfl with ⟨e, he, heq⟩
      injection heq with _ _ htarget
      subst htarget
      exact .inr ⟨_, he, hrest⟩
  | read hr _ =>
      rcases hout _ hr rfl with ⟨e, _, heq⟩
      injection heq with _ hsym _
      exact absurd hsym (by simp only [reduceCtorEq, not_false_eq_true])

end Finite

namespace Fragment

/-- The words that are read from the start to an accept state. -/
def language (f : Fragment) : Language Char :=
  {w | ∃ t ∈ f.accepting, Finite.Path f.rules.toList f.start w t}

theorem mem_language {f : Fragment} {w : List Char} :
    w ∈ f.language ↔ ∃ t ∈ f.accepting, Finite.Path f.rules.toList f.start w t :=
  Iff.rfl

/-- The states of a fragment are in a range. -/
structure Within (f : Fragment) (low high : Nat) : Prop where
  start : f.start.Between low high
  accepting : ∀ s ∈ f.accepting, s.Between low high
  source : ∀ r ∈ f.rules.toList, r.source.Between low high
  target : ∀ r ∈ f.rules.toList, r.target.Between low high

theorem Within.mono {f : Fragment} {low high low' high' : Nat} (h : f.Within low high)
    (hl : low' ≤ low) (hh : high ≤ high') : f.Within low' high' := by
  have widen : ∀ s : StateIndex, s.Between low high → s.Between low' high' := by
    intro s hs
    unfold Index.Between at hs ⊢
    omega
  exact ⟨widen _ h.start, fun s hs => widen s (h.accepting s hs),
    fun r hr => widen _ (h.source r hr), fun r hr => widen _ (h.target r hr)⟩

/-- A fragment has a state, so its range is not empty. -/
theorem Within.le {f : Fragment} {low high : Nat} (h : f.Within low high) : low ≤ high := by
  have hstart := h.start
  unfold Index.Between at hstart
  omega

/-- The rules that join fragments read nothing. -/
theorem read_ne_free {p q s t : StateIndex} {c : Char} : ⟨p, .character c, q⟩ ≠ free s t := by
  intro h
  injection h with _ hsym _
  exact absurd hsym (by simp only [reduceCtorEq, not_false_eq_true])

/-! ## Fragments of one or two states -/

theorem within_point {s : StateIndex} {low high : Nat} (hs : s.Between low high) :
    (point s).Within low high := by
  refine ⟨hs, fun t ht => ?_, fun r hr => ?_, fun r hr => ?_⟩
  · rw [List.mem_singleton.1 ht]
    exact hs
  · exact absurd hr List.not_mem_nil
  · exact absurd hr List.not_mem_nil

theorem language_point (s : StateIndex) : (point s).language = 1 := by
  ext w
  rw [mem_language, Language.mem_one]
  constructor
  · rintro ⟨t, _, h⟩
    cases h with
    | refl _ => rfl
    | free hr _ => exact absurd hr List.not_mem_nil
    | read hr _ => exact absurd hr List.not_mem_nil
  · rintro rfl
    exact ⟨s, List.mem_singleton_self s, .refl s⟩

theorem within_edge {s t : StateIndex} {c : Char} {low high : Nat} (hs : s.Between low high)
    (ht : t.Between low high) : (edge s c t).Within low high := by
  refine ⟨hs, fun q hq => ?_, fun r hr => ?_, fun r hr => ?_⟩
  · rw [List.mem_singleton.1 hq]
    exact ht
  · rw [List.mem_singleton.1 hr]
    exact hs
  · rw [List.mem_singleton.1 hr]
    exact ht

theorem language_edge {s t : StateIndex} (hne : s ≠ t) (c : Char) :
    (edge s c t).language = {[c]} := by
  ext w
  have hmem : w ∈ ({[c]} : Language Char) ↔ w = [c] := Iff.rfl
  rw [mem_language, hmem]
  constructor
  · rintro ⟨q, hq, h⟩
    rw [List.mem_singleton.1 hq] at h
    change Finite.Path [⟨s, .character c, t⟩] s w t at h
    cases h with
    | refl _ => exact absurd rfl hne
    | free hr _ =>
        injection List.mem_singleton.1 hr with _ hsym _
        exact absurd hsym (by simp only [reduceCtorEq, not_false_eq_true])
    | read hr hrest =>
        injection List.mem_singleton.1 hr with _ hsym htarget
        injection hsym with hc
        subst hc htarget
        -- No rule leads on from the accept state.
        cases hrest with
        | refl _ => rfl
        | free hr _ =>
            injection List.mem_singleton.1 hr with hsource _ _
            exact absurd hsource.symm hne
        | read hr _ =>
            injection List.mem_singleton.1 hr with hsource _ _
            exact absurd hsource.symm hne
  · rintro rfl
    exact ⟨t, List.mem_singleton_self t, .read (List.mem_singleton_self _) (.refl t)⟩

/-! ## One fragment after the other -/

variable {a b : Fragment} {low mid high : Nat}

theorem mem_rules_followedBy {r : Finite.Rule StateIndex} :
    r ∈ (a.followedBy b).rules.toList ↔
      r ∈ a.rules.toList ∨ r ∈ b.rules.toList ∨ ∃ e ∈ a.accepting, r = free e b.start := by
  simp only [followedBy, Array.toList_appendList, Array.toList_append, List.mem_append,
    List.mem_map, or_assoc, eq_comm (a := r)]

theorem within_followedBy (ha : a.Within low mid) (hb : b.Within mid high) :
    (a.followedBy b).Within low high := by
  have hlow := ha.le
  have ha := ha.mono (Nat.le_refl low) hb.le
  have hb := hb.mono hlow (Nat.le_refl high)
  refine ⟨ha.start, hb.accepting, fun r hr => ?_, fun r hr => ?_⟩
  · rcases mem_rules_followedBy.1 hr with hr | hr | ⟨e, he, rfl⟩
    · exact ha.source r hr
    · exact hb.source r hr
    · exact ha.accepting e he
  · rcases mem_rules_followedBy.1 hr with hr | hr | ⟨e, he, rfl⟩
    · exact ha.target r hr
    · exact hb.target r hr
    · exact hb.start

theorem not_between_of_between {i : StateIndex} (h : i.Between mid high) :
    ¬ i.Between low mid := by
  unfold Index.Between at h ⊢
  omega

theorem language_followedBy (ha : a.Within low mid) (hb : b.Within mid high) :
    (a.followedBy b).language = a.language * b.language := by
  -- The first part can be left from its accept states, the second part cannot.
  have hout : ∀ r ∈ (a.followedBy b).rules.toList, r.source.Between low mid →
      (r ∈ a.rules.toList ∧ r.target.Between low mid) ∨
        ∃ e ∈ a.accepting, r = ⟨e, .epsilon, b.start⟩ := by
    intro r hr hs
    rcases mem_rules_followedBy.1 hr with hr | hr | hr
    · exact .inl ⟨hr, ha.target r hr⟩
    · exact absurd hs (not_between_of_between (hb.source r hr))
    · exact .inr hr
  have hkeep : ∀ r ∈ (a.followedBy b).rules.toList, r.source.Between mid high →
      r ∈ b.rules.toList ∧ r.target.Between mid high := by
    intro r hr hs
    rcases mem_rules_followedBy.1 hr with hr | hr | ⟨e, he, rfl⟩
    · exact absurd (ha.source r hr) (not_between_of_between hs)
    · exact ⟨hr, hb.target r hr⟩
    · exact absurd (ha.accepting e he) (not_between_of_between hs)
  ext w
  rw [mem_language, Language.mem_mul]
  constructor
  · rintro ⟨t, ht, h⟩
    rcases h.leaves hout ha.start with ⟨_, hin⟩ | ⟨e, he, u, v, rfl, hu, hv⟩
    · -- The path accepts in the second part, so it has crossed over.
      exact absurd hin (not_between_of_between (hb.accepting t ht))
    · exact ⟨u, ⟨e, he, hu⟩, v, ⟨t, ht, (hv.stays hkeep hb.start).1⟩, rfl⟩
  · rintro ⟨u, ⟨e, he, hu⟩, v, ⟨t, ht, hv⟩, rfl⟩
    have hu : Finite.Path (a.followedBy b).rules.toList a.start u e :=
      hu.mono fun r hr => mem_rules_followedBy.2 (.inl hr)
    have hv : Finite.Path (a.followedBy b).rules.toList b.start v t :=
      hv.mono fun r hr => mem_rules_followedBy.2 (.inr (.inl hr))
    have hglue : free e b.start ∈ (a.followedBy b).rules.toList :=
      mem_rules_followedBy.2 (.inr (.inr ⟨e, he, rfl⟩))
    exact ⟨t, ht, hu.append (.free hglue hv)⟩

/-! ## Either of two fragments -/

variable {s : StateIndex}

theorem mem_rules_either {r : Finite.Rule StateIndex} :
    r ∈ (either s a b).rules.toList ↔
      r ∈ a.rules.toList ∨ r ∈ b.rules.toList ∨ r = free s a.start ∨ r = free s b.start := by
  simp only [either, Array.toList_appendList, Array.toList_append, List.mem_append, List.mem_cons,
    List.not_mem_nil, or_false, or_assoc]

theorem within_either (ha : a.Within low high) (hb : b.Within low high)
    (hs : s.Between low high) : (either s a b).Within low high := by
  refine ⟨hs, fun t ht => ?_, fun r hr => ?_, fun r hr => ?_⟩
  · rcases List.mem_append.1 ht with ht | ht
    · exact ha.accepting t ht
    · exact hb.accepting t ht
  · rcases mem_rules_either.1 hr with hr | hr | rfl | rfl
    · exact ha.source r hr
    · exact hb.source r hr
    · exact hs
    · exact hs
  · rcases mem_rules_either.1 hr with hr | hr | rfl | rfl
    · exact ha.target r hr
    · exact hb.target r hr
    · exact ha.start
    · exact hb.start

/-- The new start may be the state that comes next. -/
theorem within_either_next (ha : a.Within low mid) (hb : b.Within mid high) :
    (either ⟨high⟩ a b).Within low (high + 1) := by
  have hlow := ha.le
  have hhigh := hb.le
  refine within_either (ha.mono (Nat.le_refl low) ?_) (hb.mono hlow (Nat.le_succ high)) ?_
  · exact Nat.le_succ_of_le hhigh
  · exact ⟨Nat.le_trans hlow hhigh, Nat.lt_succ_self high⟩

/-- A rule out of the first part is a rule of that part. -/
theorem keep_left_either (ha : a.Within low mid) (hb : b.Within mid high)
    (hs : ¬ s.Between low mid) {r : Finite.Rule StateIndex} (hr : r ∈ (either s a b).rules.toList)
    (hin : r.source.Between low mid) : r ∈ a.rules.toList ∧ r.target.Between low mid := by
  rcases mem_rules_either.1 hr with hr | hr | rfl | rfl
  · exact ⟨hr, ha.target r hr⟩
  · exact absurd hin (not_between_of_between (hb.source r hr))
  · exact absurd hin hs
  · exact absurd hin hs

/-- A rule out of the second part is a rule of that part. -/
theorem keep_right_either (ha : a.Within low mid) (hb : b.Within mid high)
    (hs : ¬ s.Between mid high) {r : Finite.Rule StateIndex} (hr : r ∈ (either s a b).rules.toList)
    (hin : r.source.Between mid high) : r ∈ b.rules.toList ∧ r.target.Between mid high := by
  rcases mem_rules_either.1 hr with hr | hr | rfl | rfl
  · exact absurd (ha.source r hr) (not_between_of_between hin)
  · exact ⟨hr, hb.target r hr⟩
  · exact absurd hin hs
  · exact absurd hin hs

/-- The rules out of the new start lead to the parts. -/
theorem exits_either (ha : ∀ r ∈ a.rules.toList, r.source ≠ s)
    (hb : ∀ r ∈ b.rules.toList, r.source ≠ s) {r : Finite.Rule StateIndex}
    (hr : r ∈ (either s a b).rules.toList) (hs : r.source = s) :
    ∃ e ∈ [a.start, b.start], r = ⟨s, .epsilon, e⟩ := by
  rcases mem_rules_either.1 hr with hr | hr | rfl | rfl
  · exact absurd hs (ha r hr)
  · exact absurd hs (hb r hr)
  · exact ⟨a.start, List.mem_cons_self, rfl⟩
  · exact ⟨b.start, List.mem_cons_of_mem _ (List.mem_singleton_self _), rfl⟩

theorem language_either (ha : a.Within low mid) (hb : b.Within mid high)
    (hs : ¬ s.Between low high) : (either s a b).language = a.language + b.language := by
  have hlow := ha.le
  have hhigh := hb.le
  -- The new start is in neither part.
  have hsa : ¬ s.Between low mid := by
    unfold Index.Between at hs ⊢
    omega
  have hsb : ¬ s.Between mid high := by
    unfold Index.Between at hs ⊢
    omega
  have hsourceA : ∀ r ∈ a.rules.toList, r.source ≠ s := by
    rintro r hr rfl
    exact hsa (ha.source r hr)
  have hsourceB : ∀ r ∈ b.rules.toList, r.source ≠ s := by
    rintro r hr rfl
    exact hsb (hb.source r hr)
  ext w
  rw [mem_language, Language.mem_add]
  constructor
  · rintro ⟨t, ht, h⟩
    have htin := List.mem_append.1 ht
    rcases h.enters fun r hr => exits_either hsourceA hsourceB hr with ⟨_, rfl⟩ | ⟨e, he, hrest⟩
    · -- The new start accepts nothing.
      rcases htin with ht | ht
      · exact absurd (ha.accepting _ ht) hsa
      · exact absurd (hb.accepting _ ht) hsb
    · rcases List.mem_cons.1 he with rfl | he
      · have hpath := hrest.stays (fun r hr => keep_left_either ha hb hsa hr) ha.start
        rcases htin with ht | ht
        · exact .inl ⟨t, ht, hpath.1⟩
        · exact absurd hpath.2 (not_between_of_between (hb.accepting t ht))
      · rw [List.mem_singleton] at he
        subst he
        have hpath := hrest.stays (fun r hr => keep_right_either ha hb hsb hr) hb.start
        rcases htin with ht | ht
        · exact absurd (ha.accepting t ht) (not_between_of_between hpath.2)
        · exact .inr ⟨t, ht, hpath.1⟩
  · rintro (⟨t, ht, h⟩ | ⟨t, ht, h⟩)
    · refine ⟨t, List.mem_append_left _ ht, .free (t := a.start) ?_ (h.mono fun r hr => ?_)⟩
      · exact mem_rules_either.2 (.inr (.inr (.inl rfl)))
      · exact mem_rules_either.2 (.inl hr)
    · refine ⟨t, List.mem_append_right _ ht, .free (t := b.start) ?_ (h.mono fun r hr => ?_)⟩
      · exact mem_rules_either.2 (.inr (.inr (.inr rfl)))
      · exact mem_rules_either.2 (.inr (.inl hr))

/-! ## A fragment any number of times -/

theorem mem_rules_looped {r : Finite.Rule StateIndex} :
    r ∈ (looped s a).rules.toList ↔
      r ∈ a.rules.toList ∨ (∃ e ∈ a.accepting, r = free e a.start) ∨ r = free s a.start := by
  simp only [looped, Array.toList_appendList, List.mem_append, List.mem_map, List.mem_singleton,
    or_assoc, eq_comm (a := r)]

theorem mem_accepting_looped {t : StateIndex} :
    t ∈ (looped s a).accepting ↔ t ∈ a.accepting ∨ t = s := by
  simp only [looped, List.mem_append, List.mem_singleton]

/-- No rule leads back to the new start. -/
theorem target_looped (ha : a.Within low high) {r : Finite.Rule StateIndex}
    (hr : r ∈ (looped s a).rules.toList) : r.target.Between low high := by
  rcases mem_rules_looped.1 hr with hr | ⟨e, _, rfl⟩ | rfl
  · exact ha.target r hr
  · exact ha.start
  · exact ha.start

theorem within_looped (ha : a.Within low high) (hs : s.Between low high) :
    (looped s a).Within low high := by
  refine ⟨hs, fun t ht => ?_, fun r hr => ?_, fun r hr => ?_⟩
  · rcases mem_accepting_looped.1 ht with ht | rfl
    · exact ha.accepting t ht
    · exact hs
  · rcases mem_rules_looped.1 hr with hr | ⟨e, he, rfl⟩ | rfl
    · exact ha.source r hr
    · exact ha.accepting e he
    · exact hs
  · exact target_looped ha hr

theorem within_looped_next (ha : a.Within low high) :
    (looped ⟨high⟩ a).Within low (high + 1) :=
  within_looped (ha.mono (Nat.le_refl low) (Nat.le_succ high)) ⟨ha.le, Nat.lt_succ_self high⟩

/-- A word in front of a row of words makes a longer row. -/
theorem append_mem_kstar {l : Language Char} {u v : List Char} (hu : u ∈ l)
    (hv : v ∈ KStar.kstar l) : u ++ v ∈ KStar.kstar l := by
  rw [← Language.one_add_self_mul_kstar_eq_kstar]
  exact .inr (Language.append_mem_mul hu hv)

/-- A path in a loop, from a state of the part that is repeated, first finishes
    the word that it is in. What remains is a row of words of the part. -/
theorem split_looped (ha : a.Within low high) (hs : ¬ s.Between low high) {q t : StateIndex}
    {w : List Char} (h : Finite.Path (looped s a).rules.toList q w t) (hq : q.Between low high)
    (ht : t ∈ a.accepting) :
    ∃ u v, w = u ++ v ∧ (∃ e ∈ a.accepting, Finite.Path a.rules.toList q u e) ∧
      v ∈ KStar.kstar a.language := by
  induction h with
  | refl q => exact ⟨[], [], rfl, ⟨q, ht, .refl q⟩, Language.nil_mem_kstar _⟩
  | @free q m t w hr _ ih =>
      rcases mem_rules_looped.1 hr with hr | ⟨e, he, heq⟩ | heq
      · rcases ih (ha.target _ hr) ht with ⟨u, v, hw, ⟨e, he, hu⟩, hv⟩
        exact ⟨u, v, hw, ⟨e, he, .free hr hu⟩, hv⟩
      · -- The word is finished here, and the path goes round again.
        injection heq with hqe _ hm
        subst hqe hm
        rcases ih ha.start ht with ⟨u, v, rfl, hu, hv⟩
        exact ⟨[], u ++ v, rfl, ⟨q, he, .refl q⟩, append_mem_kstar hu hv⟩
      · injection heq with hqs _ _
        exact absurd (hqs ▸ hq) hs
  | @read q m t c w hr _ ih =>
      rcases mem_rules_looped.1 hr with hr | ⟨e, he, heq⟩ | heq
      · rcases ih (ha.target _ hr) ht with ⟨u, v, hw, ⟨e, he, hu⟩, hv⟩
        exact ⟨c :: u, v, by rw [hw, List.cons_append], ⟨e, he, .read hr hu⟩, hv⟩
      · exact absurd heq read_ne_free
      · exact absurd heq read_ne_free

/-- From wherever a loop accepts, a row of words leads to where it accepts. -/
theorem path_looped_of_words {words : List (List Char)} (hwords : ∀ w ∈ words, w ∈ a.language) :
    ∀ q ∈ (looped s a).accepting, ∃ t ∈ (looped s a).accepting,
      Finite.Path (looped s a).rules.toList q words.flatten t := by
  induction words with
  | nil => exact fun q hq => ⟨q, hq, .refl q⟩
  | cons w words ih =>
      intro q hq
      rcases hwords w List.mem_cons_self with ⟨e, he, hw⟩
      rcases ih (fun v hv => hwords v (List.mem_cons_of_mem w hv)) e
        (mem_accepting_looped.2 (.inl he)) with ⟨t, ht, hrest⟩
      have hback : free q a.start ∈ (looped s a).rules.toList := by
        rcases mem_accepting_looped.1 hq with hq | rfl
        · exact mem_rules_looped.2 (.inr (.inl ⟨q, hq, rfl⟩))
        · exact mem_rules_looped.2 (.inr (.inr rfl))
      have hw : Finite.Path (looped s a).rules.toList a.start w e :=
        hw.mono fun r hr => mem_rules_looped.2 (.inl hr)
      exact ⟨t, ht, .free hback (hw.append hrest)⟩

/-- The only rule out of the new start leads to the part. -/
theorem exits_looped (ha : a.Within low high) (hs : ¬ s.Between low high)
    {r : Finite.Rule StateIndex} (hr : r ∈ (looped s a).rules.toList) (hsource : r.source = s) :
    ∃ e ∈ [a.start], r = ⟨s, .epsilon, e⟩ := by
  rcases mem_rules_looped.1 hr with hr | ⟨e, he, rfl⟩ | rfl
  · exact absurd (hsource ▸ ha.source r hr) hs
  · exact absurd (hsource ▸ ha.accepting e he) hs
  · exact ⟨a.start, List.mem_singleton_self _, rfl⟩

theorem language_looped (ha : a.Within low high) (hs : ¬ s.Between low high) :
    (looped s a).language = KStar.kstar a.language := by
  ext w
  rw [mem_language]
  constructor
  · rintro ⟨t, ht, h⟩
    rcases h.enters fun r hr => exits_looped ha hs hr with ⟨rfl, _⟩ | ⟨e, he, hrest⟩
    · exact Language.nil_mem_kstar _
    · rw [List.mem_singleton] at he
      subst he
      rcases mem_accepting_looped.1 ht with ht | rfl
      · rcases split_looped ha hs hrest ha.start ht with ⟨u, v, rfl, hu, hv⟩
        exact append_mem_kstar hu hv
      · -- The path has gone on into the part, and cannot have come back.
        have hin := (hrest.stays (fun r hr _ => ⟨hr, target_looped ha hr⟩) ha.start).2
        exact absurd hin hs
  · rintro ⟨words, rfl, hwords⟩
    exact path_looped_of_words hwords s (mem_accepting_looped.2 (.inr rfl))

end Fragment

end WordAutomata
