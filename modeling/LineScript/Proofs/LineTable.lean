import LineScript.Proofs.LinePositions

/-!
# The line table finds what the walk finds

Positions and lines are defined by walks over the text, and can be had from the table of line starts
instead: an offset is searched among the entries by halving, and a line is cut out between two of
them. Both ways agree on every text, on all offsets and on all lines, those beyond the text included
(`LineTable.lookup?_ofSource`, `LineTable.text?_ofSource`). In particular no index of the table is
missed, no line starts behind the offset that was looked up in it, and no character is cut in two.

The search rests on the order of the entries alone. What it keeps is that every entry in front of
the window is below the value and every entry from its end on above it; the window is empty at last,
and the value would stand there.
-/

set_option autoImplicit false

namespace LineScript

namespace LineTable

open Lines (startsFrom newlinesBefore)
open Utf8 (newline)

variable {source : String} {offset x k s here : Nat}

/-! ## The entries -/

/-- Newlines are found among the characters where they are among the bytes. -/
theorem behindNewlines_eq (here : Nat) (text : List Char) :
    behindNewlines here text = startsFrom here (Utf8.encodeChars text) := by
  induction text generalizing here with
  | nil => rfl
  | cons c text ih =>
    rw [behindNewlines, Utf8.encodeChars_cons]
    by_cases hc : c = '\n'
    · subst hc
      rw [if_pos rfl, ih]
      rfl
    · rw [if_neg hc, Lines.startsFrom_append,
        Lines.startsFrom_of_notMem (Utf8.newline_notMem_encodeChar hc), List.nil_append,
        Utf8.length_encodeChar, ih]

/-- The table of a source has the starts of its lines. -/
theorem entries_ofSource (source : String) :
    (ofSource source).entries = (Lines.starts source).toArray := by
  rw [ofSource, behindNewlines_eq]
  rfl

theorem getElem?_ofSource (source : String) (k : Nat) :
    (ofSource source).entries[k]? = (Lines.starts source)[k]? := by
  rw [entries_ofSource, List.getElem?_toArray]

/-- Up to an offset there start as many lines behind the first one as there are newlines in front of
it. -/
theorem le_iff_of_startsFrom {bytes : List UInt8} (h : (startsFrom here bytes)[k]? = some s) :
    s ≤ offset ↔ k < (bytes.take (offset - here)).count newline := by
  induction bytes generalizing here k with
  | nil => cases h
  | cons b rest ih =>
    rcases Nat.lt_or_ge here offset with hlt | hle
    · have htake : (b :: rest).take (offset - here) = b :: rest.take (offset - (here + 1)) := by
        rw [show offset - here = offset - (here + 1) + 1 by omega, List.take_succ_cons]
      rw [startsFrom] at h
      rw [htake]
      split at h
      · rename_i hb
        rw [hb, List.count_cons_self]
        cases k with
        | zero =>
          obtain rfl : here + 1 = s := Option.some.inj h
          exact iff_of_true hlt (Nat.succ_pos _)
        | succ k =>
          rw [ih h]
          exact Nat.succ_lt_succ_iff.symm
      · rename_i hb
        rw [ih h, List.count_cons_of_ne hb]
    · -- The offset is in front of all that is left, and lines start behind the newlines there.
      obtain ⟨p, hs, _⟩ := Lines.mem_startsFrom_iff.1 (List.mem_of_getElem? h)
      rw [Nat.sub_eq_zero_of_le hle]
      exact iff_of_false (by omega) (Nat.not_lt_zero k)

/-- The lines that start up to an offset are those whose index is at most the number of newlines in
front of it. -/
theorem le_iff_of_starts (h : (Lines.starts source)[k]? = some s) :
    s ≤ offset ↔ k ≤ newlinesBefore source offset := by
  cases k with
  | zero =>
    obtain rfl : 0 = s := Option.some.inj h
    exact iff_of_true (Nat.zero_le offset) (Nat.zero_le _)
  | succ k => exact le_iff_of_startsFrom h

/-! ## Searching by halving -/

/-- The entries increase. -/
def Increasing (entries : Array Nat) : Prop :=
  ∀ i j (hi : i < entries.size) (hj : j < entries.size), i < j → entries[i] < entries[j]

theorem increasing_ofSource (source : String) : Increasing (ofSource source).entries := by
  rw [entries_ofSource]
  exact fun i j hi hj hij =>
    List.pairwise_iff_getElem.1 (Lines.starts_pairwise source) i j hi hj hij

/-- The entries in front of a window are below a value, and those from its end on are above it. -/
structure Splits (entries : Array Nat) (x low high : Nat) : Prop where
  below : ∀ i (h : i < entries.size), i < low → entries[i] < x
  above : ∀ i (h : i < entries.size), high ≤ i → x < entries[i]

variable {entries : Array Nat}

/-- What a search finds is an entry. -/
theorem search_ok {low high i : Nat} {h : high ≤ entries.size}
    (hfound : search entries x low high h = .ok i) : entries[i]? = some x := by
  fun_induction search entries x low high h with
  | case1 low high h hlt middle hmiddle heq =>
    obtain rfl : middle = i := Except.ok.inj hfound
    rw [Array.getElem?_eq_getElem hmiddle, heq]
  | case2 low high h hlt middle hmiddle hne hless ih => exact ih hfound
  | case3 low high h hlt middle hmiddle hne hless ih => exact ih hfound
  | case4 => cases hfound

/-- What a search misses would stand where the search ends. -/
theorem search_error {low high i : Nat} {h : high ≤ entries.size} (hinc : Increasing entries)
    (hle : low ≤ high) (hsplits : Splits entries x low high)
    (hmissed : search entries x low high h = .error i) :
    i ≤ entries.size ∧ Splits entries x i i := by
  fun_induction search entries x low high h with
  | case1 => cases hmissed
  | case2 low high h hlt middle hmiddle hne hless ih =>
    have hbound : middle < high := by omega
    refine ih hbound ⟨fun j hj hlow => ?_, hsplits.above⟩ hmissed
    rcases Nat.lt_or_eq_of_le (Nat.le_of_lt_succ hlow) with hbefore | rfl
    · exact Nat.lt_trans (hinc j middle hj hmiddle hbefore) hless
    · exact hless
  | case3 low high h hlt middle hmiddle hne hless ih =>
    have hgreater : x < entries[middle] := by omega
    refine ih (Nat.le_add_right _ _) ⟨hsplits.below, fun j hj hhigh => ?_⟩ hmissed
    rcases Nat.lt_or_eq_of_le hhigh with hbehind | rfl
    · exact Nat.lt_trans hgreater (hinc middle j hmiddle hj hbehind)
    · exact hgreater
  | case4 low high h hnot =>
    obtain rfl : low = i := Except.error.inj hmissed
    obtain rfl : low = high := by omega
    exact ⟨h, hsplits⟩

/-! ## Offsets -/

/-- Found or missed, the search leads to the last line that starts up to the offset. -/
theorem index_ofSource (source : String) (offset : Nat) :
    (ofSource source).index offset = newlinesBefore source offset := by
  obtain ⟨start, hstart, hle, _⟩ := Lines.locate_eq source offset
  rw [← getElem?_ofSource] at hstart
  obtain ⟨hsize, hvalue⟩ := Array.getElem?_eq_some_iff.1 hstart
  have hinc := increasing_ofSource source
  unfold index
  split
  · rename_i i hfound
    have hat := search_ok hfound
    obtain ⟨hi, hoffset⟩ := Array.getElem?_eq_some_iff.1 hat
    rw [getElem?_ofSource] at hat
    refine Nat.le_antisymm ((le_iff_of_starts hat).1 (Nat.le_refl offset))
      (Nat.not_lt.1 fun hlt => ?_)
    -- The last start would be behind the offset, which is a start itself.
    have hless := hinc i _ hi hsize hlt
    omega
  · rename_i i hmissed
    have hfront : Splits (ofSource source).entries offset 0 (ofSource source).entries.size :=
      ⟨fun _ _ hlow => absurd hlow (Nat.not_lt_zero _),
        fun _ hj hhigh => absurd hj (Nat.not_lt.2 hhigh)⟩
    obtain ⟨hi, hsplits⟩ := search_error hinc (Nat.zero_le _) hfront hmissed
    have hbehind : newlinesBefore source offset < i := Nat.not_le.1 fun hge => by
      have hgreater := hsplits.above _ hsize hge
      omega
    have hlast : i - 1 < (ofSource source).entries.size := by omega
    have hless := hsplits.below (i - 1) hlast (by omega)
    have hat := getElem?_ofSource source (i - 1)
    rw [Array.getElem?_eq_getElem hlast] at hat
    have hup := (le_iff_of_starts hat.symm).1 (Nat.le_of_lt hless)
    omega

/-- **The table has the position of every offset**, and it is the one that the walk over the text
finds. -/
theorem lookup?_ofSource (source : String) (offset : Nat) :
    (ofSource source).lookup? offset = some (Lines.locate source offset) := by
  obtain ⟨start, hstart, hle, hlocate⟩ := Lines.locate_eq source offset
  rw [lookup?, index_ofSource, getElem?_ofSource, hstart, hlocate]
  exact if_pos hle

/-! ## Lines -/

/-- A table has one entry for each piece between newlines. -/
theorem length_starts (source : String) :
    (Lines.starts source).length = (splitAtEach '\n' source.toList).length := by
  have hfrom (here : Nat) (text : List Char) :
      (behindNewlines here text).length + 1 = (splitAtEach '\n' text).length := by
    induction text generalizing here with
    | nil => rfl
    | cons c text ih =>
      obtain ⟨piece, pieces, hpieces⟩ := List.exists_cons_of_ne_nil (splitAtEach_ne_nil '\n' text)
      rw [behindNewlines, splitAtEach]
      split
      · rw [List.length_cons, List.length_cons, ih]
      · rw [ih, hpieces]
        rfl
  rw [Lines.starts, List.length_cons, Utf8.encode, ← behindNewlines_eq]
  exact hfrom 0 source.toList

/-- Of a text that does not end with a character, trimming takes off the ones that are put behind
it. -/
theorem trimEnd_append_replicate {c : Char} {text : List Char} (h : text.getLast? ≠ some c)
    (n : Nat) : Lines.trimEnd c (text ++ List.replicate n c) = text := by
  have hkept : text.reverse.dropWhile (· == c) = text.reverse := by
    rw [← List.head?_reverse] at h
    cases hreverse : text.reverse with
    | nil => rfl
    | cons d rest =>
      rw [hreverse, List.head?_cons] at h
      exact List.dropWhile_cons_of_neg (by simpa using h)
  rw [Lines.trimEnd, List.reverse_append, List.reverse_replicate,
    List.dropWhile_append_of_pos (fun d hd => by simpa using List.eq_of_mem_replicate hd), hkept,
    List.reverse_reverse]

/-- The entries of the table stand between characters of the text. -/
theorem within_of_starts (h : (Lines.starts source)[k]? = some s) :
    (Span.mk s ((Lines.starts source)[k + 1]?.getD source.utf8ByteSize)).Within source := by
  obtain ⟨before, line, ending, after, htext, hspan, _⟩ := Lines.span_of_starts h
  rw [hspan]
  exact Span.within_eq htext

/-- What is left of a line between its entry and the next is the text that is shown of it. -/
theorem trimEnd_slice {line start : Nat} (h : Lines.Shows source line start) :
    Lines.trimEnd '\r' (Lines.trimEnd '\n'
        ((Span.mk start ((Lines.starts source)[line]?.getD source.utf8ByteSize)).slice
          source).toList) =
      (Lines.text source line).toList := by
  obtain ⟨returns, hslice⟩ := h.slice
  have hfree : ((Lines.text source line).toList ++ List.replicate returns '\r').getLast? ≠
      some '\n' := by
    intro hlast
    rcases List.mem_append.1 (List.mem_of_getLast? hlast) with hmem | hmem
    · exact h.newline hmem
    · exact absurd (List.eq_of_mem_replicate hmem) (by decide)
  obtain ⟨n, hending⟩ : ∃ n,
      ((Span.mk start ((Lines.starts source)[line]?.getD source.utf8ByteSize)).slice
        source).toList =
      (Lines.text source line).toList ++ List.replicate returns '\r' ++ List.replicate n '\n' := by
    rw [hslice, String.toList_append, String.toList_append, String.toList_ofList]
    split
    · exact ⟨0, rfl⟩
    · exact ⟨1, rfl⟩
  rw [hending, trimEnd_append_replicate hfree, trimEnd_append_replicate h.trimmed]

/-- **The table has the text of every line**, and for lines that are not there the empty text. -/
theorem text?_ofSource (source : String) (line : Nat) :
    (ofSource source).text? source line = some (Lines.text source line) := by
  cases line with
  | zero => rfl
  | succ k =>
    rw [text?, entry?, if_neg (Nat.succ_ne_zero k), Nat.add_sub_cancel, getElem?_ofSource,
      getElem?_ofSource]
    cases hstart : (Lines.starts source)[k]? with
    | none =>
      have hpiece : (splitAtEach '\n' source.toList)[k]? = none := by
        rw [List.getElem?_eq_none_iff, ← length_starts]
        exact List.getElem?_eq_none_iff.1 hstart
      rw [Lines.text, if_neg (Nat.succ_ne_zero k), Nat.add_sub_cancel, hpiece]
      rfl
    | some start =>
      dsimp only
      rw [(within_of_starts hstart).cut?_eq, Option.bind_eq_bind, Option.bind_some,
        trimEnd_slice (Lines.shows hstart), String.ofList_toList]

end LineTable

end LineScript
