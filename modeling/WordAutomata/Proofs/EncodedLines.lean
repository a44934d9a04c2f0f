import WordAutomata.Text.Lines
import Mathlib.Data.List.Basic

/-!
# Lines of Encoded Texts

A file is cut into lines before it is decoded, so it is the bytes that are looked
at, not the characters. In UTF-8 this makes no difference. The byte of a line feed
or of a carriage return is part of no character but itself, so the lines of an
encoded text are the encoded lines of the text.

## Main definitions

* `Text.encoded`: The bytes of a text.

## Theorems

* `Text.mem_utf8EncodeChar`: A byte below 128 is only in its own character.
* `Text.byteLines_encoded`: Cutting into lines, before and after encoding.
* `Text.lines_append_cons`, `lines_of_not_mem`: The first line and the last one.
* `Text.lines_flatMap_append`, `lines_flatMap`: The lines that were put into a text.
-/

universe u

namespace WordAutomata

namespace Text

/-! ## Bytes of characters -/

/-- The bytes of a text in UTF-8. -/
def encoded (s : List Char) : List UInt8 := s.flatMap String.utf8EncodeChar

theorem encoded_append (s t : List Char) : encoded (s ++ t) = encoded s ++ encoded t :=
  List.flatMap_append

/-- Encoded text can be decoded. -/
theorem decodeLine?_encoded (s : List Char) : decodeLine? (encoded s) = some s := by
  have hbytes : ByteArray.mk (encoded s).toArray = s.utf8Encode := by
    apply ByteArray.ext
    rw [List.utf8Encode, List.data_toByteArray, encoded]
  rw [decodeLine?, hbytes, List.utf8Decode?_utf8Encode]
  rfl

theorem toList_loop (bytes : ByteArray) (i : Nat) (front : List UInt8) :
    ByteArray.toList.loop bytes i front = front.reverse ++ bytes.data.toList.drop i := by
  fun_induction ByteArray.toList.loop bytes i front with
  | case1 i front hlt ih =>
      have hlength : i < bytes.data.toList.length := hlt
      have hget : bytes.get! i = bytes.data.toList[i] := getElem!_pos bytes.data i hlt
      rw [ih, List.reverse_cons, List.append_assoc, hget, List.singleton_append,
        ← List.drop_eq_getElem_cons hlength]
  | case2 i front hge =>
      rw [List.drop_eq_nil_of_le (Nat.le_of_not_lt hge), List.append_nil]

/-- What is saved of a text are its encoded characters. -/
theorem toList_toUTF8 (s : String) : s.toUTF8.toList = encoded s.toList := by
  rw [ByteArray.toList, toList_loop, List.reverse_nil, List.nil_append, List.drop_zero,
    String.toUTF8_eq_toByteArray, ← String.utf8Encode_toList, List.utf8Encode,
    List.data_toByteArray, encoded]

theorem utf8EncodeChar_of_lt {c : Char} (h : c.toNat < 128) :
    String.utf8EncodeChar c = [UInt8.ofNat c.toNat] := by
  have hle : c.val.toNat ≤ 0x7f := Nat.le_of_lt_succ h
  rw [String.utf8EncodeChar, if_pos hle]
  rfl

/-- The bytes of characters from 128 on are from 128 on. -/
theorem le_of_mem_utf8EncodeChar {c : Char} {b : UInt8} (hc : 128 ≤ c.toNat)
    (hb : b ∈ String.utf8EncodeChar c) : 128 ≤ b.toNat := by
  have hbig : ∀ n, 128 ≤ n → n < 256 → 128 ≤ (UInt8.ofNat n).toNat := by
    intro n hn hlt
    rw [UInt8.toNat_ofNat']
    omega
  have hle : ¬ c.val.toNat ≤ 0x7f := Nat.not_le_of_lt hc
  rw [String.utf8EncodeChar, if_neg hle] at hb
  -- All bytes of a longer encoding have a mark in front that is 128 at least.
  split at hb
  · simp only [List.mem_cons, List.not_mem_nil, or_false] at hb
    rcases hb with rfl | rfl <;> apply hbig <;> omega
  · split at hb
    · simp only [List.mem_cons, List.not_mem_nil, or_false] at hb
      rcases hb with rfl | rfl | rfl <;> apply hbig <;> omega
    · simp only [List.mem_cons, List.not_mem_nil, or_false] at hb
      rcases hb with rfl | rfl | rfl | rfl <;> apply hbig <;> omega

/-- A byte below 128 is only in the character that it stands for. -/
theorem mem_utf8EncodeChar {c d : Char} (hd : d.toNat < 128) :
    UInt8.ofNat d.toNat ∈ String.utf8EncodeChar c ↔ c = d := by
  have hbyte : (UInt8.ofNat d.toNat).toNat = d.toNat := by
    rw [UInt8.toNat_ofNat']
    omega
  constructor
  · intro h
    by_cases hc : 128 ≤ c.toNat
    · have hle := le_of_mem_utf8EncodeChar hc h
      omega
    · rw [utf8EncodeChar_of_lt (by omega), List.mem_singleton] at h
      have hnat := congrArg UInt8.toNat h
      rw [hbyte, UInt8.toNat_ofNat'] at hnat
      apply Char.toNat_inj.1
      omega
  · rintro rfl
    rw [utf8EncodeChar_of_lt hd]
    exact List.mem_singleton_self _

/-! ## Cutting -/

section Cutting

variable {α : Type u} [DecidableEq α] {separator : α}

theorem cut_cons_separator (l : List α) :
    cut separator (separator :: l) = [] :: cut separator l := by
  rw [cut, List.foldr_cons, if_pos rfl]
  rfl

theorem cut_cons_of_ne {a : α} (h : a ≠ separator) (l : List α) :
    cut separator (a :: l) = consPart a (cut separator l) := by
  rw [cut, List.foldr_cons, if_neg h]
  rfl

/-- What comes before a separator is a part. -/
theorem cut_append_cons {front : List α} (h : separator ∉ front) (l : List α) :
    cut separator (front ++ separator :: l) = front :: cut separator l := by
  induction front with
  | nil => exact cut_cons_separator l
  | cons a front ih =>
      rw [List.mem_cons, not_or] at h
      rw [List.cons_append, cut_cons_of_ne (Ne.symm h.1), ih h.2]
      rfl

/-- What has no separator in it joins the part that it stands in front of. -/
theorem cut_append {front : List α} (h : separator ∉ front) {l part : List α}
    {parts : List (List α)} (hl : cut separator l = part :: parts) :
    cut separator (front ++ l) = (front ++ part) :: parts := by
  induction front with
  | nil => exact hl
  | cons a front ih =>
      rw [List.mem_cons, not_or] at h
      rw [List.cons_append, cut_cons_of_ne (Ne.symm h.1), ih h.2]
      rfl

/-- The parts but for the last are lines, and so is the last one, unless it is
    empty. -/
theorem lines_of_cut {feed ret : α} {l rest : List α} {parts : List (List α)}
    (h : cut feed l = parts ++ [rest]) :
    lines feed ret l = parts.map (dropReturn ret) ++ if rest = [] then [] else [rest] := by
  unfold lines
  extract_lets all ended
  have hall : all = parts ++ [rest] := h
  have hended : ended = parts.map (dropReturn ret) := by
    unfold ended
    rw [hall, List.dropLast_concat]
  rw [hall, List.getLast?_concat, hended]
  cases rest with
  | nil => rw [if_pos rfl, List.append_nil]
  | cons a rest => rw [if_neg (List.cons_ne_nil a rest)]

/-- What comes before a feed is a line, but for a return at its end. -/
theorem lines_append_cons {feed ret : α} {line : List α} (h : feed ∉ line) (l : List α) :
    lines feed ret (line ++ feed :: l) = dropReturn ret line :: lines feed ret l := by
  rcases List.eq_nil_or_concat (cut feed l) with hnil | ⟨parts, rest, hparts⟩
  · exact absurd hnil (cut_ne_nil feed l)
  · rw [List.concat_eq_append] at hparts
    have hcut : cut feed (line ++ feed :: l) = (line :: parts) ++ [rest] := by
      rw [cut_append_cons h, hparts, List.cons_append]
    rw [lines_of_cut hcut, lines_of_cut hparts, List.map_cons, List.cons_append]

/-- What no feed ends is a line as it is, unless it is empty. -/
theorem lines_of_not_mem {feed ret : α} {line : List α} (h : feed ∉ line) (hne : line ≠ []) :
    lines feed ret line = [line] := by
  have hcut : cut feed line = [] ++ [line] := by
    have hnil : cut feed ([] : List α) = [[]] := rfl
    have hjoin := cut_append h hnil
    rw [List.append_nil] at hjoin
    exact hjoin
  rw [lines_of_cut hcut, if_neg hne]
  rfl

theorem dropReturn_subset (ret : α) (line : List α) : dropReturn ret line ⊆ line := by
  unfold dropReturn
  split
  · exact List.dropLast_subset line
  · exact List.Subset.refl line

theorem dropReturn_of_ne {ret : α} {line : List α} (h : line.getLast? ≠ some ret) :
    dropReturn ret line = line :=
  if_neg h

theorem dropReturn_concat (ret : α) (line : List α) : dropReturn ret (line ++ [ret]) = line := by
  rw [dropReturn, List.getLast?_concat, if_pos rfl, List.dropLast_concat]

/-- Only what follows something else can lose a return. -/
theorem dropReturn_append_cons {ret a : α} (h : a ≠ ret) (front back : List α) :
    dropReturn ret (front ++ a :: back) = front ++ a :: dropReturn ret back := by
  rcases List.eq_nil_or_concat back with rfl | ⟨back, b, rfl⟩
  · apply dropReturn_of_ne
    rw [List.getLast?_concat]
    exact fun heq => h (Option.some.inj heq)
  · rw [List.concat_eq_append]
    have hsplit : front ++ a :: (back ++ [b]) = (front ++ a :: back) ++ [b] := by
      rw [List.append_assoc, List.cons_append]
    rw [hsplit]
    by_cases hb : b = ret
    · subst hb
      rw [dropReturn_concat, dropReturn_concat]
    · have hlast : ∀ l : List α, (l ++ [b]).getLast? ≠ some ret := by
        intro l
        rw [List.getLast?_concat]
        exact fun heq => hb (Option.some.inj heq)
      rw [dropReturn_of_ne (hlast _), dropReturn_of_ne (hlast _), ← hsplit]

/-- Lines that were each ended by a feed are lines whatever follows, but for a return at
    their end. -/
theorem lines_flatMap_append {feed ret : α} {parts : List (List α)}
    (hparts : ∀ part ∈ parts, feed ∉ part) (l : List α) :
    lines feed ret (parts.flatMap (· ++ [feed]) ++ l) =
      parts.map (dropReturn ret) ++ lines feed ret l := by
  induction parts with
  | nil => rfl
  | cons part parts ih =>
      rw [List.forall_mem_cons] at hparts
      rw [List.flatMap_cons, List.append_assoc, List.append_assoc, List.singleton_append,
        lines_append_cons hparts.1, ih hparts.2, List.map_cons, List.cons_append]

/-- Lines that were each ended by a feed are found again, in front of what follows. -/
theorem lines_flatMap {feed ret : α} {parts : List (List α)} (hfeed : ∀ part ∈ parts, feed ∉ part)
    (hret : ∀ part ∈ parts, part.getLast? ≠ some ret) (l : List α) :
    lines feed ret (parts.flatMap (· ++ [feed]) ++ l) = parts ++ lines feed ret l := by
  have hparts : parts.map (dropReturn ret) = parts.map id :=
    List.map_congr_left fun part hpart => dropReturn_of_ne (hret part hpart)
  rw [lines_flatMap_append hfeed, hparts, List.map_id]

end Cutting

/-! ## Cutting and encoding -/

variable {d : Char}

theorem cut_encoded (hd : d.toNat < 128) (s : List Char) :
    cut (UInt8.ofNat d.toNat) (encoded s) = (cut d s).map encoded := by
  induction s with
  | nil => rfl
  | cons c s ih =>
      have hcons : encoded (c :: s) = String.utf8EncodeChar c ++ encoded s := List.flatMap_cons
      rw [hcons]
      by_cases h : c = d
      · subst h
        rw [utf8EncodeChar_of_lt hd, List.singleton_append, cut_cons_separator,
          cut_cons_separator, ih]
        rfl
      · rw [cut_cons_of_ne h]
        cases hs : cut d s with
        | nil => exact absurd hs (cut_ne_nil d s)
        | cons part parts =>
            rw [hs] at ih
            -- None of its bytes is the separator, so all join the part that follows.
            exact cut_append (fun hmem => h ((mem_utf8EncodeChar hd).1 hmem)) ih

theorem encoded_eq_nil_iff {s : List Char} : encoded s = [] ↔ s = [] := by
  cases s with
  | nil => exact iff_of_true rfl rfl
  | cons c s =>
      refine iff_of_false ?_ (List.cons_ne_nil c s)
      intro h
      exact String.utf8EncodeChar_ne_nil (List.append_eq_nil_iff.1 h).1

theorem dropReturn_encoded (hd : d.toNat < 128) (s : List Char) :
    dropReturn (UInt8.ofNat d.toNat) (encoded s) = encoded (dropReturn d s) := by
  rcases List.eq_nil_or_concat s with rfl | ⟨front, c, rfl⟩
  · rfl
  · have hlast : encoded (front ++ [c]) = encoded front ++ String.utf8EncodeChar c := by
      rw [encoded_append]
      exact congrArg _ (List.append_nil _)
    unfold dropReturn
    rw [List.concat_eq_append, List.getLast?_concat, List.dropLast_concat, hlast]
    by_cases h : c = d
    · subst h
      rw [if_pos rfl, utf8EncodeChar_of_lt hd, List.getLast?_concat, List.dropLast_concat,
        if_pos rfl]
    · have hne : (encoded front ++ String.utf8EncodeChar c).getLast? ≠
          some (UInt8.ofNat d.toNat) := by
        rw [List.getLast?_append_of_ne_nil _ String.utf8EncodeChar_ne_nil]
        intro hmem
        exact h ((mem_utf8EncodeChar hd).1 (List.mem_of_getLast? hmem))
      have hne' : some c ≠ some d := fun heq => h (Option.some.inj heq)
      rw [if_neg hne, if_neg hne', hlast]

/-- The lines of an encoded text are its encoded lines. -/
theorem byteLines_encoded (s : List Char) :
    byteLines (encoded s) = (lines '\n' '\r' s).map encoded := by
  have hdrop : ∀ line, dropReturn 13 (encoded line) = encoded (dropReturn '\r' line) :=
    dropReturn_encoded (d := '\r') (by decide)
  have hcut : cut 10 (encoded s) = (cut '\n' s).map encoded := cut_encoded (d := '\n') (by decide) s
  rcases List.eq_nil_or_concat (cut '\n' s) with hnil | ⟨parts, rest, hparts⟩
  · exact absurd hnil (cut_ne_nil '\n' s)
  · rw [List.concat_eq_append] at hparts
    rw [hparts, List.map_append] at hcut
    rw [byteLines, lines_of_cut hcut, lines_of_cut hparts, List.map_append, List.map_map,
      List.map_map]
    have hended : (dropReturn 13 ∘ encoded : List Char → List UInt8) = encoded ∘ dropReturn '\r' :=
      funext hdrop
    rw [hended]
    -- The last part is empty after encoding exactly if it was before.
    by_cases hrest : rest = []
    · rw [if_pos hrest, if_pos (encoded_eq_nil_iff.2 hrest)]
      rfl
    · rw [if_neg hrest, if_neg (mt encoded_eq_nil_iff.1 hrest)]
      rfl

end Text

end WordAutomata
