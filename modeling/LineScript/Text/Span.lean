/-!
# Places in a source text

All positions are counted in bytes of the UTF-8 form of the text.
-/

set_option autoImplicit false

namespace LineScript

/-- The bytes from `start` up to, not including, `stop`. -/
structure Span where
  start : Nat
  stop : Nat
deriving DecidableEq, Inhabited

namespace Span

/-- The empty span at a position. -/
def point (position : Nat) : Span := ⟨position, position⟩

/-- The smallest span that covers both. -/
def merge (a b : Span) : Span := ⟨min a.start b.start, max a.stop b.stop⟩

/-- The number of bytes covered. -/
def length (s : Span) : Nat := s.stop - s.start

/-- The text that a span covers. -/
def slice (s : Span) (source : String) : String :=
  String.Pos.Raw.extract source ⟨s.start⟩ ⟨s.stop⟩

/-- The text that a span covers, if its ends are in order and both stand between characters of the
text. -/
def cut? (s : Span) (source : String) : Option String :=
  if s.start ≤ s.stop ∧ (⟨s.start⟩ : String.Pos.Raw).IsValid source ∧
      (⟨s.stop⟩ : String.Pos.Raw).IsValid source then
    some (s.slice source)
  else
    none

end Span

/-- The number of bytes that the characters take in UTF-8. -/
def byteLength : List Char → Nat
  | [] => 0
  | c :: rest => c.utf8Size + byteLength rest

@[simp]
theorem byteLength_nil : byteLength [] = 0 := rfl

@[simp]
theorem byteLength_cons (c : Char) (rest : List Char) :
    byteLength (c :: rest) = c.utf8Size + byteLength rest := rfl

@[simp]
theorem byteLength_append (a b : List Char) :
    byteLength (a ++ b) = byteLength a + byteLength b := by
  induction a with
  | nil => simp
  | cons c rest ih => simp [ih, Nat.add_assoc]

end LineScript
