import WordAutomata.Ordered

/-!
# Catalogues

Search trees over a list of rules, so that the rules for a state are found
without going through all of them. `grouped` files the rules of a
nondeterministic automaton by one key and keeps those with the same key
together, in the order of the list. `tabulate` files the rules of a
deterministic automaton by two keys, and fails if two rules share both.

Each is a function of the list, and its lemmas say that looking up gives what
a scan of the list gives. Nothing else about the trees matters.

## Main definitions

* `grouped`: The rules of a list by one key.
* `tabulate`: The rules of a list by two keys that determine the rule.
* `lookUp?`: The rule in a row and a column of such a table.

## Theorems

* `getD_grouped`: A group holds the rules with its key, in order.
* `foldlM_enter`: When entering rules into a table fails, and with which rule.
* `holds_of_tabulate`: A table finds what a scan of the list finds.
* `lookUp?_of_mem`: Every rule of the list is found in its place.
* `tabulate_of_nodup`, `nodup_of_tabulate`: Rules can be tabulated exactly if
  no two of them share a place.
-/

universe u v w

namespace WordAutomata

namespace Catalogue

variable {ρ : Type u} {κ : Type v} {ι : Type w} [Ordered κ] [Ordered ι]

/-- The rules of a list by a key, those with the same key in the order of the
    list. -/
def grouped (key : ρ → κ) (rules : List ρ) : Std.TreeMap κ (List ρ) :=
  rules.foldr (fun r groups => groups.insert (key r) (r :: groups.getD (key r) [])) ∅

theorem getD_grouped (key : ρ → κ) (rules : List ρ) (k : κ) :
    (grouped key rules).getD k [] = rules.filter fun r => key r = k := by
  induction rules with
  | nil => simp [grouped]
  | cons r rules ih =>
    rw [grouped, List.foldr_cons, ← grouped, Std.TreeMap.getD_insert, List.filter_cons]
    by_cases h : key r = k
    · simp [h, ih]
    · simp [h, ih]

/-- Rules in rows and columns, at most one in each place. -/
abbrev Table (ρ : Type u) (κ : Type v) (ι : Type w) [Ordered κ] [Ordered ι] :=
  Std.TreeMap κ (Std.TreeMap ι ρ)

/-- The rule in a row and a column. -/
def lookUp? (table : Table ρ κ ι) (k : κ) (i : ι) : Option ρ :=
  (table[k]?).bind fun columns => columns[i]?

/-- Puts a rule into its place, or returns the rule if the place is taken. -/
def enter (row : ρ → κ) (column : ρ → ι) (table : Table ρ κ ι) (r : ρ) :
    Except ρ (Table ρ κ ι) :=
  let columns := table.getD (row r) ∅
  if columns.contains (column r) then .error r
  else .ok (table.insert (row r) (columns.insert (column r) r))

theorem getElem?_getD (table : Table ρ κ ι) (k : κ) (i : ι) :
    (table.getD k ∅)[i]? = lookUp? table k i := by
  rw [lookUp?, Std.TreeMap.getD_eq_getD_getElem?]
  cases table[k]? <;> simp

theorem enter_of_isSome {row : ρ → κ} {column : ρ → ι} {table : Table ρ κ ι} {r : ρ}
    (h : (lookUp? table (row r) (column r)).isSome) : enter row column table r = .error r := by
  rw [← getElem?_getD, ← Std.TreeMap.contains_eq_isSome_getElem?] at h
  simp [enter, h]

/-- A rule that is entered is found in its place, and all else is found where
    it was. -/
theorem enter_of_eq_none {row : ρ → κ} {column : ρ → ι} {table : Table ρ κ ι} {r : ρ}
    (h : lookUp? table (row r) (column r) = none) :
    ∃ table', enter row column table r = .ok table' ∧ ∀ k i, lookUp? table' k i =
      if row r = k ∧ column r = i then some r else lookUp? table k i := by
  have hc : (table.getD (row r) ∅).contains (column r) = false := by
    rw [Std.TreeMap.contains_eq_isSome_getElem?, getElem?_getD, h]
    rfl
  refine ⟨_, by rw [enter, hc]; rfl, fun k i => ?_⟩
  rw [lookUp?, Std.TreeMap.getElem?_insert]
  by_cases hk : row r = k
  · subst hk
    simp only [Std.ReflCmp.compare_self, ↓reduceIte, Option.bind_some,
      Std.TreeMap.getElem?_insert, getElem?_getD]
    by_cases hi : column r = i
    · simp [hi]
    · simp [hi]
  · simp [hk, lookUp?]

/-- The rules of a list in their places. Fails with the first rule whose place
    an earlier rule has taken. -/
def tabulate (row : ρ → κ) (column : ρ → ι) (rules : List ρ) : Except ρ (Table ρ κ ι) :=
  rules.foldlM (enter row column) ∅

/-- The place of a rule: its row and its column. -/
def place (row : ρ → κ) (column : ρ → ι) (r : ρ) : κ × ι := (row r, column r)

/-- A table in which looking up gives the first rule of a list in that place. -/
def Holds (row : ρ → κ) (column : ρ → ι) (table : Table ρ κ ι) (rules : List ρ) : Prop :=
  ∀ k i, lookUp? table k i = rules.find? fun r => place row column r = (k, i)

/-- Entering more rules into a table either finds a place taken, by the first
    rule for which that is so, or succeeds, and then no two rules share a
    place. -/
theorem foldlM_enter {row : ρ → κ} {column : ρ → ι} (rules : List ρ) {table : Table ρ κ ι}
    {done : List ρ} (hold : Holds row column table done)
    (distinct : (done.map (place row column)).Nodup) :
    (∃ table', rules.foldlM (enter row column) table = .ok table' ∧
      Holds row column table' (done ++ rules) ∧
      ((done ++ rules).map (place row column)).Nodup) ∨
    (∃ front r back, rules = front ++ r :: back ∧
      rules.foldlM (enter row column) table = .error r ∧
      ((done ++ front).map (place row column)).Nodup ∧
      place row column r ∈ (done ++ front).map (place row column)) := by
  induction rules generalizing table done with
  | nil => exact .inl ⟨table, rfl, by simpa using hold, by simpa using distinct⟩
  | cons r rules ih =>
    rw [List.foldlM_cons]
    cases hr : lookUp? table (row r) (column r) with
    | some s =>
      refine .inr ⟨[], r, rules, rfl, ?_, by simpa using distinct, ?_⟩
      · rw [enter_of_isSome (by simp [hr])]
        rfl
      · -- The rule found in this place is among those entered before.
        rw [hold] at hr
        have hs := List.find?_some hr
        simp only [decide_eq_true_eq] at hs
        rw [List.append_nil, List.mem_map]
        exact ⟨s, List.mem_of_find?_eq_some hr, hs⟩
    | none =>
      -- The place is free. Entering the rule keeps what the table says of the
      -- rules before, so the rest of the list goes on from here.
      obtain ⟨table', he, hl⟩ := enter_of_eq_none hr
      rw [hold, List.find?_eq_none] at hr
      have hold' : Holds row column table' (done ++ [r]) := fun k i => by
        rw [hl, hold, List.find?_append]
        by_cases hp : row r = k ∧ column r = i
        · obtain ⟨rfl, rfl⟩ := hp
          rw [List.find?_eq_none.2 hr]
          simp [place]
        · have : ¬ place row column r = (k, i) := by simpa [place] using hp
          simp [hp, this]
      have distinct' : ((done ++ [r]).map (place row column)).Nodup := by
        rw [List.map_append, List.nodup_append]
        refine ⟨distinct, by simp, ?_⟩
        rintro p hp q hq rfl
        obtain ⟨s, hs, rfl⟩ := List.mem_map.1 hp
        exact hr s hs (by simpa [place] using hq)
      rcases ih hold' distinct' with ⟨t, ht, h₁, h₂⟩ | ⟨front, e, back, rfl, ht, h₁, h₂⟩
      · refine .inl ⟨t, ?_, by simpa using h₁, by simpa using h₂⟩
        rw [he]
        exact ht
      · refine .inr ⟨r :: front, e, back, rfl, ?_, by simpa using h₁, by simpa using h₂⟩
        rw [he]
        exact ht

theorem holds_empty (row : ρ → κ) (column : ρ → ι) : Holds row column ∅ [] := by
  simp [Holds, lookUp?]

/-- Rules in places of their own can be tabulated. -/
theorem tabulate_of_nodup {row : ρ → κ} {column : ρ → ι} {rules : List ρ}
    (h : (rules.map (place row column)).Nodup) :
    ∃ table, tabulate row column rules = .ok table := by
  rcases foldlM_enter rules (holds_empty row column) (by simp) with
    ⟨table, ht, -⟩ | ⟨front, r, back, rfl, -, -, hr⟩
  · exact ⟨table, ht⟩
  · rw [List.map_append, List.nodup_append] at h
    exact absurd rfl (h.2.2 _ hr _ (by simp))

/-- A table finds in each place the rule of the list that has it. -/
theorem holds_of_tabulate {row : ρ → κ} {column : ρ → ι} {rules : List ρ} {table : Table ρ κ ι}
    (h : tabulate row column rules = .ok table) : Holds row column table rules := by
  rcases foldlM_enter rules (holds_empty row column) (by simp) with
    ⟨t, ht, hold, -⟩ | ⟨front, r, back, -, ht, -, -⟩
  · rw [tabulate, ht, Except.ok.injEq] at h
    exact h ▸ hold
  · rw [tabulate, ht] at h
    cases h

/-- Rules that could be tabulated have places of their own. -/
theorem nodup_of_tabulate {row : ρ → κ} {column : ρ → ι} {rules : List ρ} {table : Table ρ κ ι}
    (h : tabulate row column rules = .ok table) : (rules.map (place row column)).Nodup := by
  rcases foldlM_enter rules (holds_empty row column) (by simp) with
    ⟨t, -, -, hn⟩ | ⟨front, r, back, -, ht, -, -⟩
  · exact hn
  · rw [tabulate, ht] at h
    cases h

/-- A rule that was tabulated is found in its place. -/
theorem lookUp?_of_mem {row : ρ → κ} {column : ρ → ι} {rules : List ρ} {table : Table ρ κ ι}
    (h : tabulate row column rules = .ok table) {r : ρ} (hr : r ∈ rules) :
    lookUp? table (row r) (column r) = some r := by
  rw [holds_of_tabulate h]
  have distinct := nodup_of_tabulate h
  clear h
  induction rules with
  | nil => exact absurd hr List.not_mem_nil
  | cons s rules ih =>
      rw [List.map_cons, List.nodup_cons] at distinct
      rw [List.find?_cons]
      rcases List.mem_cons.1 hr with rfl | hr
      · simp [place]
      · -- An earlier rule in the same place would share it with this one.
        have hne : place row column s ≠ (row r, column r) := by
          intro hs
          exact distinct.1 (List.mem_map.2 ⟨r, hr, hs.symm⟩)
        simp only [hne, decide_false]
        exact ih hr distinct.2

end Catalogue

end WordAutomata
