import LineScript.Text.Span
import LineScript.Text.Split

/-!
# Lines of a source text

A line ends with a newline character. `Lines.locate` turns a byte offset into a line and a column,
both counted from one, columns in bytes; offsets past the end lie on the last line. `Lines.text`
gives the text of a line without the newline and without carriage returns at its end.

Both walk over the text. `LineTable` is the other way to the same answers: the offsets at which
lines start are written down once, an offset is searched among them by halving, and a line is cut
out between its own entry and the next.
-/

set_option autoImplicit false

namespace LineScript.Lines

/-- A line and a column, both counted from one. -/
structure Position where
  line : Nat
  column : Nat
deriving DecidableEq

/-- Walks over text that begins at byte `here`, on line `line`, whose first byte is `start`. Each
newline strictly before `offset` moves on to the line after it. -/
def locateFrom (offset here line start : Nat) : List Char → Position
  | [] => ⟨line, offset - start + 1⟩
  | c :: rest =>
    let next := here + c.utf8Size
    if c = '\n' ∧ here < offset then
      locateFrom offset next (line + 1) next rest
    else
      locateFrom offset next line start rest

/-- The position of a byte offset. -/
def locate (source : String) (offset : Nat) : Position := locateFrom offset 0 1 0 source.toList

/-- A text without the occurrences of a character at its end. -/
def trimEnd (c : Char) (text : List Char) : List Char := (text.reverse.dropWhile (· == c)).reverse

/-- A line without carriage returns at its end. -/
def trimReturns (line : List Char) : List Char := trimEnd '\r' line

/-- The text of a line, counted from one; empty where there is no such line. -/
def text (source : String) (line : Nat) : String :=
  if line = 0 then ""
  else String.ofList (trimReturns (((splitAtEach '\n' source.toList)[line - 1]?).getD []))

end LineScript.Lines

namespace LineScript

/-- The offsets at which the lines of a text start, in increasing order. -/
structure LineTable where
  entries : Array Nat

namespace LineTable

/-- The offsets behind the newlines of a text that begins at byte `here`. -/
def behindNewlines (here : Nat) : List Char → List Nat
  | [] => []
  | c :: rest =>
    let next := here + c.utf8Size
    if c = '\n' then next :: behindNewlines next rest else behindNewlines next rest

/-- The table of a text. -/
def ofSource (source : String) : LineTable := ⟨(0 :: behindNewlines 0 source.toList).toArray⟩

/-- Searches the entries from `low` up to, not including, `high` for a value. The answer is the
index of the value, or, as an error, the index at which it would have to be put in. -/
def search (entries : Array Nat) (x low high : Nat) (h : high ≤ entries.size) : Except Nat Nat :=
  if hlt : low < high then
    let middle := low + (high - low) / 2
    have hmiddle : middle < entries.size := by omega
    if entries[middle] = x then .ok middle
    else if entries[middle] < x then search entries x (middle + 1) high h
    else search entries x low middle (Nat.le_of_lt hmiddle)
  else
    .error low
termination_by high - low

/-- The index of the line that an offset is on: the offset is its entry, or else would be put in
behind it. -/
def index (table : LineTable) (offset : Nat) : Nat :=
  match search table.entries offset 0 table.entries.size (Nat.le_refl _) with
  | .ok i => i
  | .error i => i - 1

/-- The position of an offset. There is none if its line is not in the table or starts behind the
offset. -/
def lookup? (table : LineTable) (offset : Nat) : Option Lines.Position := do
  let start ← table.entries[table.index offset]?
  if start ≤ offset then some ⟨table.index offset + 1, offset - start + 1⟩ else none

/-- The entry of a line, counted from one. -/
def entry? (table : LineTable) (line : Nat) : Option Nat :=
  if line = 0 then none else table.entries[line - 1]?

/-- The text of a line: from its entry to the next, or to the end if there is no next one, without
the newlines and then the carriage returns at its end; empty if there is no such line. There is none
if an entry is not between two characters of the text. -/
def text? (table : LineTable) (source : String) (line : Nat) : Option String :=
  match table.entry? line with
  | none => some ""
  | some start => do
    let whole ← (Span.mk start (table.entries[line]?.getD source.utf8ByteSize)).cut? source
    some (String.ofList (Lines.trimEnd '\r' (Lines.trimEnd '\n' whole.toList)))

end LineTable

end LineScript
