/-!
# Cutting text

Text is cut at every occurrence of a separator; the pieces hold no separator, and there is always at
least one of them.
-/

set_option autoImplicit false

namespace LineScript

/-- The pieces of a text between the occurrences of a separator. -/
def splitAtEach (separator : Char) : List Char → List (List Char)
  | [] => [[]]
  | c :: rest =>
    if c = separator then
      [] :: splitAtEach separator rest
    else
      match splitAtEach separator rest with
      | [] => [[c]]
      | piece :: pieces => (c :: piece) :: pieces

@[simp]
theorem splitAtEach_nil (separator : Char) : splitAtEach separator [] = [[]] := rfl

/-- There is always a first piece, which is empty where the text begins with the separator. -/
theorem splitAtEach_ne_nil (separator : Char) (text : List Char) :
    splitAtEach separator text ≠ [] := by
  cases text with
  | nil => simp
  | cons c rest =>
    rw [splitAtEach]
    split
    · simp
    · split <;> simp

end LineScript
