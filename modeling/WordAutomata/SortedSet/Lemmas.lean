import WordAutomata.SortedSet.Basic

/-!
# Members of Sorted Sets

What each operation on sorted sets does to membership, one lemma for each of
them. With `ext_mem`, which says that a set is determined by its members, an
equation between sets is proved by comparing members and no proof has to look
at a list again.

## Theorems

* `SortedSet.ext_mem`: Sets with the same members are equal.
* `SortedSet.contains_iff`: Looking up decides membership.
* `SortedSet.intersects_iff`: Overlap is a common member.
* `SortedSet.isSubset_iff`: Inclusion is that of the members.
* `SortedSet.mem_ofList`, `mem_add`, `mem_union`, `mem_extend`, `mem_singleton`:
  The members of a set by the way it was built.
-/

universe u

namespace WordAutomata

namespace SortedSet

variable {α : Type u} [Ordered α]

@[simp]
theorem not_mem_empty {a : α} : ¬ a ∈ (empty : SortedSet α) := by
  simp [mem_def, empty]

@[simp]
theorem mem_singleton {a b : α} : b ∈ singleton a ↔ b = a := by
  simp [mem_def, singleton]

@[simp]
theorem mem_ofList {a : α} {l : List α} : a ∈ ofList l ↔ a ∈ l := by
  simp [mem_def, ofList, mem_dropRepeats]

@[simp]
theorem mem_add {s : SortedSet α} {a b : α} : b ∈ s.add a ↔ b = a ∨ b ∈ s :=
  mem_insertAscending

@[simp]
theorem mem_union {s t : SortedSet α} {a : α} : a ∈ s.union t ↔ a ∈ s ∨ a ∈ t := by
  simp [mem_def, union, mem_dropRepeats, List.mem_merge]

@[simp]
theorem mem_extend {s : SortedSet α} {l : List α} {a : α} :
    a ∈ s.extend l ↔ a ∈ s ∨ a ∈ l := by
  simp [extend, mem_def (s := s)]

theorem findAscending_iff {a : α} {l : List α} (h : l.Pairwise fun a b => compare a b = .lt) :
    findAscending a l = true ↔ a ∈ l := by
  induction l with
  | nil => simp [findAscending]
  | cons b l ih =>
    rw [List.pairwise_cons] at h
    unfold findAscending
    split
    · rename_i hab
      constructor
      · intro hf
        cases hf
      · intro hm
        rcases List.mem_cons.1 hm with rfl | hm
        · simp at hab
        · simpa using Std.TransCmp.lt_trans hab (h.1 a hm)
    · rename_i hab
      simp [Std.LawfulEqCmp.eq_of_compare hab]
    · rename_i hab
      have hne : a ≠ b := by
        rintro rfl
        simp at hab
      simp [ih h.2, hne]

theorem contains_iff {s : SortedSet α} {a : α} : s.contains a = true ↔ a ∈ s :=
  findAscending_iff s.ascending

/-- What is smaller than the first element of an ascending list is not in it. -/
theorem not_mem_of_lt_head {a b : α} {l : List α} (hab : compare a b = .lt)
    (h : (b :: l).Pairwise fun a b => compare a b = .lt) : ¬ a ∈ b :: l := by
  intro ha
  rcases List.mem_cons.1 ha with rfl | ha
  · simp at hab
  · have hba := (List.pairwise_cons.1 h).1 a ha
    simpa using Std.TransCmp.lt_trans hab hba

theorem meetAscending_iff {l m : List α} (hl : l.Pairwise fun a b => compare a b = .lt)
    (hm : m.Pairwise fun a b => compare a b = .lt) :
    meetAscending l m = true ↔ ∃ a, a ∈ l ∧ a ∈ m := by
  fun_induction meetAscending l m with
  | case1 m => simp
  | case2 l => simp
  | case3 a l b m hab ih =>
      -- The smaller head cannot be in the other list, so it can be dropped.
      have ha := not_mem_of_lt_head hab hm
      rw [ih (List.pairwise_cons.1 hl).2 hm]
      grind
  | case4 a l b m hab =>
      rw [Std.LawfulEqCmp.eq_of_compare hab]
      exact iff_of_true rfl ⟨b, List.mem_cons_self, List.mem_cons_self⟩
  | case5 a l b m hab ih =>
      have hb := not_mem_of_lt_head (Std.OrientedCmp.gt_iff_lt.1 hab) hl
      rw [ih hl (List.pairwise_cons.1 hm).2]
      grind

/-- Two sets overlap if they have a member in common. -/
theorem intersects_iff {s t : SortedSet α} : s.intersects t = true ↔ ∃ a, a ∈ s ∧ a ∈ t :=
  meetAscending_iff s.ascending t.ascending

theorem includedAscending_iff {l m : List α} (hl : l.Pairwise fun a b => compare a b = .lt)
    (hm : m.Pairwise fun a b => compare a b = .lt) :
    includedAscending l m = true ↔ ∀ a ∈ l, a ∈ m := by
  fun_induction includedAscending l m with
  | case1 m => simp
  | case2 a l => simp only [Bool.false_eq_true, List.forall_mem_cons, List.not_mem_nil, false_and]
  | case3 a l b m hab =>
      -- All that is left of the second list is larger.
      have ha := not_mem_of_lt_head hab hm
      simp only [Bool.false_eq_true, List.forall_mem_cons, ha, false_and]
  | case4 a l b m hab ih =>
      obtain rfl := Std.LawfulEqCmp.eq_of_compare hab
      have hne : ∀ c ∈ l, c ≠ a := by
        intro c hc hca
        have hlt := (List.pairwise_cons.1 hl).1 c hc
        simp [hca] at hlt
      rw [ih (List.pairwise_cons.1 hl).2 (List.pairwise_cons.1 hm).2, List.forall_mem_cons]
      -- The rest of the first list is larger than what was found, and can do without it.
      constructor
      · intro h
        exact ⟨List.mem_cons_self, fun c hc => List.mem_cons_of_mem a (h c hc)⟩
      · intro h c hc
        exact (List.mem_cons.1 (h.2 c hc)).resolve_left (hne c hc)
  | case5 a l b m hab ih =>
      have hb := not_mem_of_lt_head (Std.OrientedCmp.gt_iff_lt.1 hab) hl
      rw [ih hl (List.pairwise_cons.1 hm).2]
      -- The smaller head is not in the first list, so nothing there looks for it.
      constructor
      · intro h c hc
        exact List.mem_cons_of_mem b (h c hc)
      · intro h c hc
        refine (List.mem_cons.1 (h c hc)).resolve_left fun hcb => ?_
        exact hb (hcb ▸ hc)

/-- Going through both lists once, each element is found in a place of its own. -/
theorem length_le_of_includedAscending {l m : List α} (h : includedAscending l m = true) :
    l.length ≤ m.length := by
  fun_induction includedAscending l m with
  | case1 m => exact Nat.zero_le _
  | case2 a l => cases h
  | case3 a l b m hab => cases h
  | case4 a l b m hab ih => exact Nat.succ_le_succ (ih h)
  | case5 a l b m hab ih => exact Nat.le_succ_of_le (ih h)

/-- One set is included in another if its members are. That the sizes are compared first
    saves time and changes no answer. -/
theorem isSubset_iff {s t : SortedSet α} : s.isSubset t = true ↔ ∀ a ∈ s, a ∈ t := by
  have hincluded := includedAscending_iff s.ascending t.ascending
  unfold isSubset size
  rw [Bool.and_eq_true, decide_eq_true_eq]
  constructor
  · intro h
    exact hincluded.1 h.2
  · intro h
    have hpass := hincluded.2 h
    exact ⟨length_le_of_includedAscending hpass, hpass⟩

/-- Lists in ascending order with the same elements are the same list. -/
theorem eq_of_ascending {l m : List α} (hl : l.Pairwise fun a b => compare a b = .lt)
    (hm : m.Pairwise fun a b => compare a b = .lt) (h : ∀ a, a ∈ l ↔ a ∈ m) : l = m := by
  induction l generalizing m with
  | nil => cases m with
    | nil => rfl
    | cons b m => simpa using h b
  | cons a l ih => cases m with
    | nil => simpa using h a
    | cons b m =>
      rw [List.pairwise_cons] at hl hm
      have hab : a = b := by
        rcases List.mem_cons.1 ((h a).1 List.mem_cons_self) with hab | ham
        · exact hab
        rcases List.mem_cons.1 ((h b).2 List.mem_cons_self) with hba | hbl
        · exact hba.symm
        have := Std.TransCmp.lt_trans (hl.1 b hbl) (hm.1 a ham)
        simp at this
      subst hab
      refine congrArg _ (ih hl.2 hm.2 fun c => ?_)
      have notl : c ∈ l → c ≠ a := by
        rintro hc rfl
        simpa using hl.1 c hc
      have notm : c ∈ m → c ≠ a := by
        rintro hc rfl
        simpa using hm.1 c hc
      have := h c
      simp only [List.mem_cons] at this
      constructor
      · intro hc
        exact (this.1 (.inr hc)).resolve_left (notl hc)
      · intro hc
        exact (this.2 (.inr hc)).resolve_left (notm hc)

/-- A set is determined by its members. -/
theorem ext_mem {s t : SortedSet α} (h : ∀ a, a ∈ s ↔ a ∈ t) : s = t :=
  eq_of_toList_eq (eq_of_ascending s.ascending t.ascending h)

end SortedSet

end WordAutomata
