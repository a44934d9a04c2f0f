import WordAutomata.Symbol

/-!
# Trails and What They Spell

Rules of different automata do different things. One leads from a state to a state, and
another also takes something off a stack and leaves something there. To a row of rules,
taken one after the other, this makes no difference. Each rule goes on from where the one
before it came to, and what the row spells stands on its rules when the epsilons are struck
out.

So a kind of rules is told by two things: what a rule reads, and between which places it
leads. A place is whatever the next rule can depend on.

`Spells` keeps of a trail its ends and its word only. A trail is built from its end, with
one rule after the other put in front, and can be taken apart in the same way. That is all
it takes to compare trails with another account of the same rules.

## Main definitions

* `RuleKind`: What rules read, and between which places they lead.
* `RuleKind.Trail`: A row of rules that leads from one place to another.
* `RuleKind.spelled`: The word on a row of rules.
* `RuleKind.Spells`: A trail of given rules spells a word.

## Theorems

* `RuleKind.Spells.free`, `RuleKind.Spells.read`: One more rule in front.
* `RuleKind.Spells.induction`: What holds at the end and in front of each rule.
-/

universe u v

namespace WordAutomata

/-- What rules read, and between which places they lead. -/
structure RuleKind (R : Type u) (P : Type v) where
  /-- What a rule reads. -/
  symbol : R → Symbol
  /-- Whether a rule leads from one place to another. -/
  leads : R → P → P → Prop

namespace RuleKind

/-- A row of rules leads from one place to another: each rule leads from where the one
    before it came to. -/
inductive Trail {R : Type u} {P : Type v} (k : RuleKind R P) : P → List R → P → Prop
  | nil (p : P) : Trail k p [] p
  | cons {r : R} {p q t : P} {trail : List R} :
      k.leads r p q → Trail k q trail t → Trail k p (r :: trail) t

variable {R : Type u} {P : Type v}

/-- The characters on a row of rules, in order. Epsilons leave nothing. -/
def spelled (k : RuleKind R P) (trail : List R) : List Char :=
  trail.filterMap fun r => (k.symbol r).character?

/-- A trail of given rules leads from one place to another and spells a word. -/
def Spells (k : RuleKind R P) (rules : List R) (p : P) (w : List Char) (t : P) : Prop :=
  ∃ trail, k.Trail p trail t ∧ (∀ r ∈ trail, r ∈ rules) ∧ k.spelled trail = w

variable {k : RuleKind R P} {rules : List R} {r : R} {p q t : P} {x : Char} {w : List Char}

theorem spelled_cons_of_epsilon (h : k.symbol r = .epsilon) (trail : List R) :
    k.spelled (r :: trail) = k.spelled trail := by
  unfold spelled
  rw [List.filterMap_cons, h]
  rfl

theorem spelled_cons_of_character (h : k.symbol r = .character x) (trail : List R) :
    k.spelled (r :: trail) = x :: k.spelled trail := by
  unfold spelled
  rw [List.filterMap_cons, h]
  rfl

theorem spells_refl (p : P) : k.Spells rules p [] p :=
  ⟨[], .nil p, fun _ hr => absurd hr List.not_mem_nil, rfl⟩

theorem Spells.free (h : k.Spells rules q w t) (hr : r ∈ rules) (hsymbol : k.symbol r = .epsilon)
    (hleads : k.leads r p q) : k.Spells rules p w t := by
  rcases h with ⟨trail, htrail, hrules, rfl⟩
  exact ⟨r :: trail, .cons hleads htrail, List.forall_mem_cons.2 ⟨hr, hrules⟩,
    spelled_cons_of_epsilon hsymbol trail⟩

theorem Spells.read (h : k.Spells rules q w t) (hr : r ∈ rules)
    (hsymbol : k.symbol r = .character x) (hleads : k.leads r p q) :
    k.Spells rules p (x :: w) t := by
  rcases h with ⟨trail, htrail, hrules, rfl⟩
  exact ⟨r :: trail, .cons hleads htrail, List.forall_mem_cons.2 ⟨hr, hrules⟩,
    spelled_cons_of_character hsymbol trail⟩

/-- What holds at the end of a trail, and in front of each rule if it holds behind it,
    holds at the start. -/
@[elab_as_elim]
theorem Spells.induction {motive : P → List Char → Prop} (h : k.Spells rules p w t)
    (refl : motive t [])
    (free : ∀ {r p q w}, r ∈ rules → k.symbol r = .epsilon → k.leads r p q → motive q w →
      motive p w)
    (read : ∀ {r x p q w}, r ∈ rules → k.symbol r = .character x → k.leads r p q →
      motive q w → motive p (x :: w)) : motive p w := by
  rcases h with ⟨trail, htrail, hrules, rfl⟩
  induction htrail with
  | nil p => exact refl
  | @cons r p q t trail hleads _ ih =>
      rw [List.forall_mem_cons] at hrules
      have hrest := ih refl hrules.2
      cases hsymbol : k.symbol r with
      | epsilon =>
          rw [spelled_cons_of_epsilon hsymbol]
          exact free hrules.1 hsymbol hleads hrest
      | character x =>
          rw [spelled_cons_of_character hsymbol]
          exact read hrules.1 hsymbol hleads hrest

end RuleKind

end WordAutomata
