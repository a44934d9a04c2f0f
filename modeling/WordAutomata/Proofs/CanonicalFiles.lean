import WordAutomata.Proofs.CommandOutcomes
import WordAutomata.Proofs.ReadFiles
import WordAutomata.Proofs.RenamedStates
import Mathlib

/-!
# Canonical Files

The file that is written for an automaton depends on the automaton only, and not on how
it was put down. Two files may have their lines in different orders, may repeat
lines, or may number the states differently. If they describe the same automaton,
then the same text is written for both, to the last character.

Whether a file can be read does not depend on the order of its lines either. A line
with a fault is reached sooner or later, and only the first fault that is reported
may be another one.

## Main definitions

* `Aldebaran.Rearranged`: A file with the lines of another one.
* `Tool.Activity.Writes`: A command writes a text.

## Theorems

* `Aldebaran.read_rearranged`: What is read of a rearranged file.
* `Tool.determinize_writes`: Renamed automata in files have the same text.
* `Tool.determinize_canonical`: Determinizing leaves nothing of names and order.
-/

universe u v

namespace WordAutomata

namespace Aldebaran

open Text

/-- The second file announces the initial state and the states that the first one does,
    and has the same lines after its header, in any order and any number of times. -/
def Rearranged (bytes bytes' : List UInt8) : Prop :=
  ∃ header lines header' lines', readHead (byteLines bytes) = .ok (header, lines) ∧
    readHead (byteLines bytes') = .ok (header', lines') ∧ header'.initial = header.initial ∧
    header'.states = header.states ∧ ∀ line, line ∈ lines' ↔ line ∈ lines

/-- A rearranged file can be read if the file can, and the same rules are read. -/
theorem read_rearranged {silent : List (List Char)} {bytes bytes' : List UInt8} {a : Automaton}
    (h : Rearranged bytes bytes') (hread : read silent bytes = .ok a) :
    ∃ a', read silent bytes' = .ok a' ∧ a'.initial = a.initial ∧
      ∀ r, r ∈ a'.rulebook.rules ↔ r ∈ a.rulebook.rules := by
  rcases h with ⟨header, lines, header', lines', hhead, hhead', hinitial, hstates, hlines⟩
  rcases read_ok hread with ⟨_, _, hhead'', hstart, _, hrules⟩
  cases hhead.symm.trans hhead''
  have hfault : (readRules header.states silent [] lines).2 = none := by
    rw [hrules]
  -- No line has a fault, wherever it stands.
  have hfault' : (readRules header'.states silent [] lines').2 = none := by
    rw [fault_readRules_eq_none_iff] at hfault ⊢
    intro line hline
    rw [hstates]
    exact hfault line ((hlines line).1 hline)
  have hrules' : readRules header'.states silent [] lines' =
      ((readRules header'.states silent [] lines').1, none) := by
    rw [← hfault']
  refine ⟨_, read_of_readRules hhead' hrules', ?_, fun r => ?_⟩
  · rw [hstart, hinitial]
  · have hmem : ∀ {n ls}, (readRules n silent [] ls).2 = none →
        (r ∈ (readRules n silent [] ls).1 ↔ ∃ line ∈ ls, readRule n silent line = .ok (some r)) :=
      fun hnone => ⟨fun hr => (mem_readRules hr).resolve_left List.not_mem_nil,
        fun hr => mem_readRules_of_mem hnone (.inr hr)⟩
    have hleft := hmem hfault'
    have hright := hmem hfault
    rw [hrules] at hright
    show r ∈ (readRules header'.states silent [] lines').1 ↔ _
    rw [hleft, hright, hstates]
    simp only [hlines]

/-- Automata with the same rules are renamed with the names that they have. -/
theorem renaming_of_mem_rules_iff {a a' : Automaton} (hinitial : a'.initial = a.initial)
    (hrules : ∀ r, r ∈ a'.rulebook.rules ↔ r ∈ a.rulebook.rules) (accepting : List StateIndex) :
    (a.toNfa accepting).Renaming id (a'.toNfa accepting) where
  apart _ _ _ _ h := h
  start_eq := hinitial
  mem_rules r := by
    have hid : ∀ r : Finite.Rule StateIndex, r.map id = r := fun _ => rfl
    rw [List.map_congr_left fun r _ => hid r, List.map_id']
    exact hrules r
  accepting_eq := by
    apply SortedSet.ext_mem
    intro s
    rw [SortedSet.mem_image]
    simp only [id_eq, exists_eq_right]
    rfl

end Aldebaran

namespace Tool

/-- A command writes a text, to a file or among its results, and does nothing else. -/
def Activity.Writes (act : Activity Unit) (s : FileSystem) (output : Option String)
    (text : String) : Prop :=
  ∀ results, act.Ensures results s fun r results' s' =>
    (r, results', s') = delivered output text results s

variable {s : FileSystem} {path : String} {silent : List String} {a : Aldebaran.Automaton}

theorem determinize_writes (h : s.automaton path silent = .ok a) (accepting : List Nat)
    (output : Option String) :
    (determinize path silent accepting output).Writes s output (determinizedText a accepting) := by
  intro results
  apply ensures_determinize.imp
  intro r results' s' hr
  rw [h] at hr
  exact hr

/-- Renamed automata in files have the same text. -/
theorem determinizedText_eq {f : StateIndex → StateIndex} {a a' : Aldebaran.Automaton}
    {accepting accepting' : List Nat}
    (h : (a.toNfa (accepting.map Index.mk)).Renaming f (a'.toNfa (accepting'.map Index.mk))) :
    determinizedText a' accepting' = determinizedText a accepting := by
  unfold determinizedText
  rw [h.renumber_determinize]

/-- Rearranged files have the same text. -/
theorem automaton_rearranged {s' : FileSystem} {path' : String} {bytes bytes' : List UInt8}
    (h : Aldebaran.Rearranged bytes bytes') (hfind : s.find path = .ok bytes)
    (hfind' : s'.find path' = .ok bytes') (hext : Path.extension? path' = some extension)
    (hread : s.automaton path silent = .ok a) (accepting : List StateIndex) :
    ∃ a', s'.automaton path' silent = .ok a' ∧
      (a.toNfa accepting).Renaming id (a'.toNfa accepting) := by
  rcases FileSystem.automaton_eq_ok_iff.1 hread with ⟨_, _, hbytes, hok⟩
  cases hfind.symm.trans hbytes
  rcases Aldebaran.read_rearranged h hok with ⟨a', ha', hinitial, hrules⟩
  refine ⟨a', ?_, Aldebaran.renaming_of_mem_rules_iff hinitial hrules accepting⟩
  exact FileSystem.automaton_eq_ok_iff.2 ⟨hext, bytes', hfind', ha'⟩

/-- An automaton and the same one with other names for its states, and with its rules in
    another order or repeated, become the same automaton when they are determinized
    and get numbers for states. So one text is written for two files, if they
    describe the same automaton but for the numbers of its states, or if they have
    the same lines. -/
theorem determinize_canonical :
    (∀ {S : Type u} {T : Type v} [Ordered S] [Ordered T] (f : S → T) (a : Nfa S) (b : Nfa T),
      a.Renaming f b → b.determinize.renumber = a.determinize.renumber) ∧
    (∀ (f : StateIndex → StateIndex) (a a' : Aldebaran.Automaton) (accepting accepting' : List Nat),
      (a.toNfa (accepting.map Index.mk)).Renaming f (a'.toNfa (accepting'.map Index.mk)) →
      ∀ (s s' : FileSystem) (path path' : String) (silent silent' : List String),
        s.automaton path silent = .ok a → s'.automaton path' silent' = .ok a' →
        ∀ output, ∃ text,
          (determinize path silent accepting output).Writes s output text ∧
          (determinize path' silent' accepting' output).Writes s' output text) ∧
    (∀ (bytes bytes' : List UInt8), Aldebaran.Rearranged bytes bytes' →
      ∀ (s s' : FileSystem) (path path' : String), s.find path = .ok bytes →
        s'.find path' = .ok bytes' → Path.extension? path' = some extension →
        ∀ (silent : List String) (a : Aldebaran.Automaton), s.automaton path silent = .ok a →
        ∀ accepting output, ∃ text,
          (determinize path silent accepting output).Writes s output text ∧
          (determinize path' silent accepting output).Writes s' output text) := by
  refine ⟨fun f a b h => h.renumber_determinize, ?_, ?_⟩
  · intro f a a' accepting accepting' h s s' path path' silent silent' hread hread' output
    refine ⟨determinizedText a accepting, determinize_writes hread accepting output, ?_⟩
    rw [← determinizedText_eq h]
    exact determinize_writes hread' accepting' output
  · intro bytes bytes' h s s' path path' hfind hfind' hext silent a hread accepting output
    rcases automaton_rearranged h hfind hfind' hext hread (accepting.map Index.mk) with
      ⟨a', hread', hrename⟩
    refine ⟨determinizedText a accepting, determinize_writes hread accepting output, ?_⟩
    rw [← determinizedText_eq hrename]
    exact determinize_writes hread' accepting output

/-- A file in which one letter leads to two states. -/
def forked : List UInt8 :=
  "des (0, 4, 3)\n(0, a, 1)\n(0, a, 2)\n(1, tau, 0)\n(2, b, 1)\n".toUTF8.toList

/-- The same with the states numbered backwards, and with the lines in another order and
    one of them twice. -/
def forkedBack : List UInt8 :=
  "des (2, 5, 3)\n(0, b, 1)\n(2, a, 0)\n(1, tau, 2)\n(2, a, 1)\n(2, a, 0)\n".toUTF8.toList

/-- The lines of the first file in another order, one of them twice. -/
def forkedAgain : List UInt8 :=
  "des (0, 5, 3)\n(2, b, 1)\n(0, a, 2)\n(1, tau, 0)\n(0, a, 1)\n(0, a, 2)\n".toUTF8.toList

/-- The automaton in the first file. -/
def fork : Aldebaran.Automaton :=
  ⟨⟨0⟩, 3, .ofRules [⟨⟨0⟩, .character 'a', ⟨1⟩⟩, ⟨⟨0⟩, .character 'a', ⟨2⟩⟩,
    ⟨⟨1⟩, .epsilon, ⟨0⟩⟩, ⟨⟨2⟩, .character 'b', ⟨1⟩⟩]⟩

/-- The automaton in the second file. -/
def forkBack : Aldebaran.Automaton :=
  ⟨⟨2⟩, 3, .ofRules [⟨⟨0⟩, .character 'b', ⟨1⟩⟩, ⟨⟨2⟩, .character 'a', ⟨0⟩⟩,
    ⟨⟨1⟩, .epsilon, ⟨2⟩⟩, ⟨⟨2⟩, .character 'a', ⟨1⟩⟩, ⟨⟨2⟩, .character 'a', ⟨0⟩⟩]⟩

/-- Zero and two change places. -/
def backwards (i : StateIndex) : StateIndex :=
  if i.value = 0 then ⟨2⟩ else if i.value = 2 then ⟨0⟩ else i

theorem backwards_backwards (i : StateIndex) : backwards (backwards i) = i := by
  rcases i with ⟨k⟩
  unfold backwards
  by_cases hzero : k = 0
  · simp [hzero]
  · by_cases htwo : k = 2
    · simp [htwo]
    · simp [hzero, htwo]

/-- The third file has the lines of the first one. -/
theorem rearranged_forked : Aldebaran.Rearranged forked forkedAgain := by
  have hhead : Aldebaran.readHead (Text.byteLines forked) = .ok (⟨0, 4, 3⟩,
      ["(0, a, 1)", "(0, a, 2)", "(1, tau, 0)", "(2, b, 1)"].map
        fun line => line.toUTF8.toList) := by cbv
  have hheadAgain : Aldebaran.readHead (Text.byteLines forkedAgain) = .ok (⟨0, 5, 3⟩,
      ["(2, b, 1)", "(0, a, 2)", "(1, tau, 0)", "(0, a, 1)", "(0, a, 2)"].map
        fun line => line.toUTF8.toList) := by cbv
  refine ⟨_, _, _, _, hhead, hheadAgain, rfl, rfl, fun line => ?_⟩
  simp only [List.map_cons, List.map_nil, List.mem_cons, List.not_mem_nil, or_false]
  tauto

/-- A file system with all three files. -/
def forkFiles : FileSystem :=
  .holding [("fork.aut", forked), ("back.aut", forkedBack), ("again.aut", forkedAgain)]

/-- The first file has the lines of the third one, and describes the same automaton as
    the second one. One text is written for it and for each of the others. -/
theorem determinize_canonical_fork :
    (fork.toNfa [⟨2⟩]).Renaming backwards (forkBack.toNfa [⟨0⟩]) ∧
    forkFiles.automaton "fork.aut" [] = .ok fork ∧
    forkFiles.automaton "back.aut" [] = .ok forkBack ∧
    (∃ text, (determinize "fork.aut" [] [2] none).Writes forkFiles none text ∧
      (determinize "back.aut" [] [0] none).Writes forkFiles none text) ∧
    Aldebaran.Rearranged forked forkedAgain ∧
    ∃ text, (determinize "fork.aut" [] [2] none).Writes forkFiles none text ∧
      (determinize "again.aut" [] [2] none).Writes forkFiles none text := by
  have hrename : (fork.toNfa [⟨2⟩]).Renaming backwards (forkBack.toNfa [⟨0⟩]) := {
    apart := by
      intro i j _ _ h
      rw [← backwards_backwards i, h, backwards_backwards]
    start_eq := rfl
    mem_rules := by
      intro r
      have hmap : (fork.toNfa [⟨2⟩]).rulebook.rules.map (Finite.Rule.map backwards) =
          [⟨⟨2⟩, .character 'a', ⟨1⟩⟩, ⟨⟨2⟩, .character 'a', ⟨0⟩⟩, ⟨⟨1⟩, .epsilon, ⟨2⟩⟩,
            ⟨⟨0⟩, .character 'b', ⟨1⟩⟩] := rfl
      rw [hmap]
      show r ∈ forkBack.rulebook.rules ↔ _
      simp only [forkBack, Nfa.Rulebook.ofRules, List.mem_cons, List.not_mem_nil, or_false]
      tauto
    accepting_eq := by cbv
  }
  have hread : forkFiles.automaton "fork.aut" [] = .ok fork := by
    have hfork : Aldebaran.read [] forked = .ok fork := by cbv
    exact FileSystem.automaton_eq_ok_iff.2 ⟨by decide, forked, rfl, hfork⟩
  have hreadBack : forkFiles.automaton "back.aut" [] = .ok forkBack := by
    have hfork : Aldebaran.read [] forkedBack = .ok forkBack := by cbv
    exact FileSystem.automaton_eq_ok_iff.2 ⟨by decide, forkedBack, rfl, hfork⟩
  rcases determinize_canonical.{0, 0} with ⟨_, hrenamed, hrearranged⟩
  refine ⟨hrename, hread, hreadBack, ?_, rearranged_forked, ?_⟩
  · exact hrenamed backwards fork forkBack [2] [0] hrename forkFiles forkFiles "fork.aut" "back.aut"
      [] [] hread hreadBack none
  · exact hrearranged forked forkedAgain rearranged_forked forkFiles forkFiles "fork.aut"
      "again.aut" rfl rfl (by decide) [] fork hread [2] none

end Tool

end WordAutomata
