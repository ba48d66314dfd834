import LineScript.Proofs.Text.Position
import LineScript.Proofs.Text.Slice
import LineScript.Proofs.Text.Utf8
import Mathlib.Data.List.TakeWhile
import Mathlib.Data.Prod.Lex

/-!
# Offsets and positions

A line starts at the front of the text and behind each newline. `Lines.starts` is the table of these
offsets, which is strictly increasing. The position of an offset is found in it: the line is the
last one that starts at or before the offset, and the column counts the bytes from there
(`Lines.locate_eq`). So line start and column give the offset back, and of two offsets the larger
one has the later position (`Lines.lt_iff_position_lt`). What is shown of a line lies between its
entry and the next one (`Lines.shows`).

Positions count bytes and lines are made of characters. The two meet in one fact about UTF-8: a
newline is one byte, and no other character has this byte in it (`Utf8.newline_notMem_encodeChar`).
-/

set_option autoImplicit false

namespace LineScript

/-! ## Newlines in UTF-8 -/

namespace Utf8

/-- The byte of a newline. -/
def newline : UInt8 := 0x0A

theorem length_encodeChar (c : Char) : (encodeChar c).length = c.utf8Size := by
  have hle : ∀ n (h : n < UInt32.size), c.val ≤ UInt32.ofNatLT n h ↔ c.toNat < n + 1 := by
    intro n h
    rw [UInt32.le_iff_toNat_le, UInt32.toNat_ofNatLT]
    exact Nat.lt_succ_iff.symm
  unfold encodeChar Char.utf8Size
  simp only [hle]
  split_ifs <;> rfl

theorem length_encodeChars (text : List Char) : (encodeChars text).length = byteLength text := by
  induction text with
  | nil => rfl
  | cons c rest ih =>
    rw [encodeChars, List.flatMap_cons, List.length_append, length_encodeChar, byteLength_cons,
      ← ih, encodeChars]

theorem encodeChars_cons (c : Char) (rest : List Char) :
    encodeChars (c :: rest) = encodeChar c ++ encodeChars rest :=
  List.flatMap_cons

theorem newline_ne_toUInt8 {n : Nat} (hn : n < 256) (h : n ≠ 0x0A) : newline ≠ n.toUInt8 := by
  intro heq
  have hvalue := congrArg UInt8.toNat heq
  rw [toNat_toUInt8 hn] at hvalue
  exact h hvalue.symm

/-- No part of another character looks like a newline. -/
theorem newline_notMem_encodeChar {c : Char} (h : c ≠ '\n') : newline ∉ encodeChar c := by
  have hne : c.toNat ≠ 0x0A := fun heq => h (Char.ext (UInt32.toNat_inj.1 heq))
  have hvalid := toNat_cases c
  unfold encodeChar
  dsimp only
  split_ifs <;> simp only [List.mem_cons, List.not_mem_nil, or_false, not_or]
  · exact newline_ne_toUInt8 (by omega) hne
  · exact ⟨newline_ne_toUInt8 (by omega) (by omega), newline_ne_toUInt8 (by omega) (by omega)⟩
  · exact ⟨newline_ne_toUInt8 (by omega) (by omega), newline_ne_toUInt8 (by omega) (by omega),
      newline_ne_toUInt8 (by omega) (by omega)⟩
  · exact ⟨newline_ne_toUInt8 (by omega) (by omega), newline_ne_toUInt8 (by omega) (by omega),
      newline_ne_toUInt8 (by omega) (by omega), newline_ne_toUInt8 (by omega) (by omega)⟩

theorem newline_notMem_encodeChars {text : List Char} (h : '\n' ∉ text) :
    newline ∉ encodeChars text := by
  intro hmem
  obtain ⟨c, hc, hbyte⟩ := List.mem_flatMap.1 hmem
  exact newline_notMem_encodeChar (fun heq => h (heq ▸ hc)) hbyte

end Utf8

namespace Lines

open Utf8 (newline)

/-! ## The table of line starts -/

/-- The offsets behind the newlines of some bytes, of which the first is at `here`. -/
def startsFrom (here : Nat) : List UInt8 → List Nat
  | [] => []
  | b :: rest => if b = newline then (here + 1) :: startsFrom (here + 1) rest
    else startsFrom (here + 1) rest

/-- The offsets at which the lines of a source start. -/
def starts (source : String) : List Nat := 0 :: startsFrom 0 (Utf8.encode source)

/-- The number of newlines in front of an offset. -/
def newlinesBefore (source : String) (offset : Nat) : Nat :=
  ((Utf8.encode source).take offset).count newline

variable {here offset start k s : Nat} {bytes front back : List UInt8}

theorem startsFrom_append (here : Nat) (front back : List UInt8) :
    startsFrom here (front ++ back) =
      startsFrom here front ++ startsFrom (here + front.length) back := by
  induction front generalizing here with
  | nil => rfl
  | cons b front ih =>
    have hlength : here + (b :: front).length = here + 1 + front.length := by
      rw [List.length_cons]
      omega
    rw [List.cons_append, startsFrom, startsFrom, ih, hlength]
    split <;> rfl

theorem startsFrom_of_notMem (h : newline ∉ bytes) (here : Nat) : startsFrom here bytes = [] := by
  induction bytes generalizing here with
  | nil => rfl
  | cons b rest ih =>
    obtain ⟨hb, hrest⟩ := not_or.1 (mt List.mem_cons.2 h)
    rw [startsFrom, if_neg (Ne.symm hb), ih hrest]

/-- Lines start behind newlines. -/
theorem mem_startsFrom_iff :
    s ∈ startsFrom here bytes ↔ ∃ p, s = here + p + 1 ∧ bytes[p]? = some newline := by
  induction bytes generalizing here with
  | nil => simp [startsFrom]
  | cons b rest ih =>
    have hbehind : (∃ p, s = here + p + 1 ∧ (b :: rest)[p]? = some newline) ↔
        (s = here + 1 ∧ b = newline) ∨ ∃ p, s = here + 1 + p + 1 ∧ rest[p]? = some newline := by
      constructor
      · rintro ⟨p, hs, hp⟩
        cases p with
        | zero => exact Or.inl ⟨hs, by simpa using hp⟩
        | succ p => exact Or.inr ⟨p, by omega, by simpa using hp⟩
      · rintro (⟨hs, hb⟩ | ⟨p, hs, hp⟩)
        · exact ⟨0, hs, by simpa using hb⟩
        · exact ⟨p + 1, by omega, by simpa using hp⟩
    rw [startsFrom, hbehind, ← ih]
    split
    · rename_i hb
      simp [hb]
    · rename_i hb
      simp [hb]

theorem startsFrom_pairwise (here : Nat) (bytes : List UInt8) :
    (startsFrom here bytes).Pairwise (· < ·) := by
  induction bytes generalizing here with
  | nil => exact .nil
  | cons b rest ih =>
    rw [startsFrom]
    split
    · refine List.pairwise_cons.2 ⟨fun s hs => ?_, ih _⟩
      obtain ⟨p, rfl, _⟩ := mem_startsFrom_iff.1 hs
      omega
    · exact ih _

/-- The table is strictly increasing. -/
theorem starts_pairwise (source : String) : (starts source).Pairwise (· < ·) := by
  refine List.pairwise_cons.2 ⟨fun s hs => ?_, startsFrom_pairwise _ _⟩
  obtain ⟨p, rfl, _⟩ := mem_startsFrom_iff.1 hs
  omega

theorem mem_starts_iff {source : String} :
    s ∈ starts source ↔ s = 0 ∨ ∃ p, s = p + 1 ∧ (Utf8.encode source)[p]? = some newline := by
  rw [starts, List.mem_cons, mem_startsFrom_iff]
  simp only [Nat.zero_add]

/-! ## Positions -/

/-- The walk over a text finds the last start that is not behind the offset, and as many newlines in
front of the offset as there are starts up to it. -/
theorem locateFrom_eq (here line start : Nat) (hstart : start ≤ offset) (text : List Char) :
    ∃ s, (start :: startsFrom here (Utf8.encodeChars text))[
        ((Utf8.encodeChars text).take (offset - here)).count newline]? = some s ∧ s ≤ offset ∧
      locateFrom offset here line start text =
        ⟨line + ((Utf8.encodeChars text).take (offset - here)).count newline, offset - s + 1⟩ := by
  induction text generalizing here line start with
  | nil =>
    exact ⟨start, by simp [Utf8.encodeChars_nil],
      hstart, by simp [Utf8.encodeChars_nil, locateFrom]⟩
  | cons c text ih =>
    by_cases hc : c = '\n'
    · subst hc
      have hbytes : Utf8.encodeChars ('\n' :: text) = newline :: Utf8.encodeChars text := rfl
      by_cases hlt : here < offset
      · -- The offset is behind this newline, and the next line starts in front of it.
        obtain ⟨s, hs, hle, hlocate⟩ := ih (here + 1) (line + 1) (here + 1) hlt
        have htake : (newline :: Utf8.encodeChars text).take (offset - here) =
            newline :: (Utf8.encodeChars text).take (offset - (here + 1)) := by
          rw [show offset - here = offset - (here + 1) + 1 by omega, List.take_succ_cons]
        refine ⟨s, ?_, hle, ?_⟩
        · rw [hbytes, htake, List.count_cons_self, List.getElem?_cons_succ, startsFrom, if_pos rfl]
          exact hs
        · rw [locateFrom, if_pos ⟨rfl, hlt⟩]
          refine hlocate.trans ?_
          rw [hbytes, htake, List.count_cons_self]
          exact congrArg (Position.mk · _) (by omega)
      · refine ⟨start, ?_, hstart, ?_⟩
        · rw [Nat.sub_eq_zero_of_le (not_lt.1 hlt)]
          rfl
        · rw [locateFrom_of_le (not_lt.1 hlt), Nat.sub_eq_zero_of_le (not_lt.1 hlt)]
          rfl
    · obtain ⟨s, hs, hle, hlocate⟩ := ih (here + c.utf8Size) line start hstart
      have hfree := Utf8.newline_notMem_encodeChar hc
      have hcount : ((Utf8.encodeChars (c :: text)).take (offset - here)).count newline =
          ((Utf8.encodeChars text).take (offset - (here + c.utf8Size))).count newline := by
        rw [Utf8.encodeChars_cons, List.take_append, List.count_append, Utf8.length_encodeChar,
          List.count_eq_zero.2 fun hmem => hfree (List.mem_of_mem_take hmem),
          Nat.zero_add, Nat.sub_sub]
      refine ⟨s, ?_, hle, ?_⟩
      · rw [hcount, Utf8.encodeChars_cons, startsFrom_append, startsFrom_of_notMem hfree,
          List.nil_append, Utf8.length_encodeChar]
        exact hs
      · rw [locateFrom, if_neg (by simp [hc]), hcount]
        exact hlocate

/-- **A position is an entry of the table.** -/
theorem locate_eq (source : String) (offset : Nat) :
    ∃ s, (starts source)[newlinesBefore source offset]? = some s ∧
      s ≤ offset ∧ locate source offset = ⟨newlinesBefore source offset + 1, offset - s + 1⟩ := by
  obtain ⟨s, hs, hle, hlocate⟩ := locateFrom_eq 0 1 0 (Nat.zero_le offset) source.toList
  rw [Nat.sub_zero] at hs hlocate
  refine ⟨s, hs, hle, hlocate.trans ?_⟩
  exact congrArg (Position.mk · _) (Nat.add_comm _ _)

theorem newlinesBefore_mono (source : String) {a b : Nat} (h : a ≤ b) :
    newlinesBefore source a ≤ newlinesBefore source b :=
  (List.take_prefix_take_left h).sublist.count_le _

/-- The larger offset has the later position. -/
theorem position_lt {source : String} {a b : Nat} (h : a < b) :
    toLex ((locate source a).line, (locate source a).column) <
      toLex ((locate source b).line, (locate source b).column) := by
  obtain ⟨s, hs, hle, ha⟩ := locate_eq source a
  obtain ⟨t, ht, hle', hb⟩ := locate_eq source b
  rw [Prod.Lex.toLex_lt_toLex, ha, hb]
  dsimp only
  rcases Nat.lt_or_eq_of_le (newlinesBefore_mono source h.le) with hlt | heq
  · exact Or.inl (Nat.succ_lt_succ hlt)
  · -- On the same line both columns are counted from the same start.
    rw [heq, ht] at hs
    obtain rfl := Option.some.inj hs
    exact Or.inr ⟨by rw [heq], by omega⟩

theorem lt_iff_position_lt {source : String} {a b : Nat} :
    a < b ↔
      toLex ((locate source a).line, (locate source a).column) <
        toLex ((locate source b).line, (locate source b).column) := by
  constructor
  · exact position_lt
  · intro h
    rcases lt_trichotomy a b with hlt | rfl | hgt
    · exact hlt
    · exact absurd h (lt_irrefl _)
    · exact absurd h (lt_asymm (position_lt hgt))

/-! ## Texts of lines -/

/-- A text is one line, or a line with a newline and other lines behind it. -/
theorem lines_cases (text : List Char) :
    '\n' ∉ text ∨ ∃ line rest, '\n' ∉ line ∧ text = line ++ '\n' :: rest := by
  by_cases hmem : '\n' ∈ text
  · obtain ⟨line, rest, htext, hline⟩ := List.eq_append_cons_of_mem hmem
    exact Or.inr ⟨line, rest, hline, htext⟩
  · exact Or.inl hmem

/-- Where an entry of the table is, a line of the text starts; the next entry is behind the newline
at its end. -/
theorem line_of_starts {text : List Char}
    (h : (here :: startsFrom here (Utf8.encodeChars text))[k]? = some s) :
    ∃ before line after, text = before ++ line ++ after ∧ '\n' ∉ line ∧
      s = here + byteLength before ∧ (splitAtEach '\n' text)[k]? = some line ∧
      ((after = [] ∧ (here :: startsFrom here (Utf8.encodeChars text))[k + 1]? = none) ∨
        ∃ rest, after = '\n' :: rest ∧ (here :: startsFrom here (Utf8.encodeChars text))[k + 1]? =
          some (s + byteLength line + 1)) := by
  -- On the index, with the text behind the first newline for the next one.
  induction k generalizing here text with
  | zero =>
    obtain rfl : here = s := Option.some.inj h
    rcases lines_cases text with hline | ⟨line, rest, hline, rfl⟩
    · refine ⟨[], text, [], by simp, hline, rfl, by rw [splitAtEach_of_notMem hline]; rfl,
        Or.inl ⟨rfl, ?_⟩⟩
      rw [startsFrom_of_notMem (Utf8.newline_notMem_encodeChars hline)]
      rfl
    · refine ⟨[], line, '\n' :: rest, rfl, hline, rfl, by rw [splitAtEach_append hline]; rfl,
        Or.inr ⟨rest, rfl, ?_⟩⟩
      rw [Utf8.encodeChars_append, startsFrom_append,
        startsFrom_of_notMem (Utf8.newline_notMem_encodeChars hline), Utf8.length_encodeChars]
      rfl
  | succ k ih =>
    rcases lines_cases text with hline | ⟨line, rest, hline, rfl⟩
    · rw [startsFrom_of_notMem (Utf8.newline_notMem_encodeChars hline)] at h
      cases h
    · have htable : startsFrom here (Utf8.encodeChars (line ++ '\n' :: rest)) = (here + byteLength
          line + 1) :: startsFrom (here + byteLength line + 1) (Utf8.encodeChars rest) := by
        rw [Utf8.encodeChars_append, startsFrom_append,
          startsFrom_of_notMem (Utf8.newline_notMem_encodeChars hline), Utf8.length_encodeChars]
        rfl
      rw [htable, List.getElem?_cons_succ] at h
      obtain ⟨before, current, after, rfl, hcurrent, rfl, hsplit, hnext⟩ := ih h
      refine ⟨line ++ '\n' :: before, current, after, by simp, hcurrent, ?_, ?_, ?_⟩
      · have hsize : Char.utf8Size '\n' = 1 := rfl
        rw [byteLength_append, byteLength_cons]
        omega
      · rw [splitAtEach_append hline, List.getElem?_cons_succ, hsplit]
      · rw [htable, List.getElem?_cons_succ]
        exact hnext

/-- Only carriage returns at the end are left out of a line. -/
theorem trimReturns_append (line : List Char) :
    ∃ returns, trimReturns line ++ List.replicate returns '\r' = line := by
  refine ⟨(line.reverse.takeWhile (· == '\r')).length, ?_⟩
  have hreturns : line.reverse.takeWhile (· == '\r') =
      List.replicate (line.reverse.takeWhile (· == '\r')).length '\r' :=
    List.eq_replicate_iff.2 ⟨rfl, fun c hc => by simpa using List.mem_takeWhile_imp hc⟩
  rw [← List.reverse_replicate, ← hreturns, trimReturns, trimEnd, ← List.reverse_append,
    List.takeWhile_append_dropWhile, List.reverse_reverse]

/-- No carriage return is left at the end. -/
theorem getLast?_trimReturns (line : List Char) : (trimReturns line).getLast? ≠ some '\r' := by
  intro hlast
  have hnot := List.head?_dropWhile_not (· == '\r') line.reverse
  rw [trimReturns, trimEnd, List.getLast?_reverse] at hlast
  rw [hlast] at hnot
  simp at hnot

/-- What is shown of the line that starts at an offset: all up to the next line, but for the newline
and the carriage returns in front of it. -/
structure Shows (source : String) (line start : Nat) : Prop where
  slice :
      ∃ returns, (Span.mk start (((starts source)[line]?).getD source.utf8ByteSize)).slice source =
        text source line ++ String.ofList (List.replicate returns '\r') ++
          if (starts source)[line]? = none then "" else "\n"
  trimmed : (text source line).toList.getLast? ≠ some '\r'
  newline : '\n' ∉ (text source line).toList

/-- From an entry of the table to the next, or to the end of the source, there is one line with the
newline behind it, if it has one. -/
theorem span_of_starts {source : String} (h : (starts source)[k]? = some s) :
    ∃ before line ending after, source.toList = before ++ (line ++ ending) ++ after ∧
      Span.mk s (((starts source)[k + 1]?).getD source.utf8ByteSize) = ⟨byteLength before,
        byteLength before + byteLength (line ++ ending)⟩ ∧
      '\n' ∉ line ∧ (splitAtEach '\n' source.toList)[k]? = some line ∧
      ending = if (starts source)[k + 1]? = none then [] else ['\n'] := by
  obtain ⟨before, line, after, htext, hline, rfl, hsplit, hnext⟩ := line_of_starts h
  rcases hnext with ⟨rfl, hnone⟩ | ⟨rest, rfl, hsome⟩
  · refine ⟨before, line, [], [], by rw [htext, List.append_nil line], ?_, hline, hsplit,
      (if_pos hnone).symm⟩
    rw [starts, Utf8.encode, hnone, Option.getD_none, ← byteLength_toList, htext, Nat.zero_add,
      List.append_nil, List.append_nil, byteLength_append]
  · refine ⟨before, line, ['\n'], rest, ?_, ?_, hline, hsplit,
      (if_neg (hsome ▸ Option.some_ne_none _)).symm⟩
    · rw [htext, List.append_cons, List.append_assoc before line]
    · rw [starts, Utf8.encode, hsome, Option.getD_some, byteLength_append line, Nat.zero_add,
        Nat.add_assoc]
      rfl

theorem shows {source : String} (h : (starts source)[k]? = some s) : Shows source (k + 1) s := by
  obtain ⟨before, line, ending, after, htext, hspan, hline, hsplit, hending⟩ := span_of_starts h
  have hshown : text source (k + 1) = String.ofList (trimReturns line) := by
    rw [text, if_neg (Nat.succ_ne_zero k), Nat.add_sub_cancel, hsplit, Option.getD_some]
  obtain ⟨returns, hreturns⟩ := trimReturns_append line
  refine ⟨⟨returns, ?_⟩, ?_, ?_⟩
  · rw [hspan, Span.slice_eq htext, hshown, ← String.ofList_append, hreturns,
      String.ofList_append, hending]
    split <;> rfl
  · rw [hshown, String.toList_ofList]
    exact getLast?_trimReturns line
  · rw [hshown, String.toList_ofList]
    intro hmem
    exact hline (hreturns ▸ List.mem_append_left _ hmem)

/-! ## One to one -/

/-- **Offsets and positions correspond one to one.** The table of line starts is strictly
increasing, and lines start at the front and behind each newline, nowhere else. The line of an
offset is one more than the number of newlines in front of it, and the start of this line plus the
column, less one, is the offset. The order of positions is that of the offsets, past the end of the
source as well. The text of each line is what stands between its start and the next one, less the
newline and the carriage returns at its end. -/
theorem offset_position_correspondence (source : String) :
    (starts source).Pairwise (· < ·) ∧
    (∀ s, s ∈ starts source ↔ s = 0 ∨ ∃ p, s = p + 1 ∧ (Utf8.encode source)[p]? = some newline) ∧
    (∀ offset, (locate source offset).line = newlinesBefore source offset + 1 ∧
      ∃ start, (starts source)[(locate source offset).line - 1]? = some start ∧ start ≤ offset ∧
        0 < (locate source offset).column ∧ start + ((locate source offset).column - 1) = offset) ∧
    (∀ a b, a < b ↔ toLex ((locate source a).line, (locate source a).column) <
      toLex ((locate source b).line, (locate source b).column)) ∧
    ∀ k start, (starts source)[k]? = some start → Shows source (k + 1) start := by
  refine ⟨starts_pairwise source, fun s => mem_starts_iff, fun offset => ?_,
    fun a b => lt_iff_position_lt, fun k start => shows⟩
  obtain ⟨start, hstart, hle, hlocate⟩ := locate_eq source offset
  rw [hlocate]
  exact ⟨rfl, start, hstart, hle, Nat.succ_pos _, by dsimp only; omega⟩

/-- Of two lines, the first ends with a carriage return and the second is empty. -/
theorem offset_position_correspondence_twoLines :
    (starts "é\r\n")[0]? = some 0 ∧ (starts "é\r\n")[1]? = some 4 ∧
      Shows "é\r\n" 1 0 ∧ Shows "é\r\n" 2 4 ∧
      locate "é\r\n" 3 = ⟨1, 4⟩ ∧ locate "é\r\n" 4 = ⟨2, 1⟩ ∧ locate "é\r\n" 9 = ⟨2, 6⟩ := by
  have hstarts : starts "é\r\n" = [0, 4] := by decide
  obtain ⟨_, _, _, _, hshows⟩ := offset_position_correspondence "é\r\n"
  exact ⟨by rw [hstarts]; rfl, by rw [hstarts]; rfl, hshows 0 0 (by rw [hstarts]; rfl),
    hshows 1 4 (by rw [hstarts]; rfl), by decide, by decide, by decide⟩

end Lines

end LineScript
