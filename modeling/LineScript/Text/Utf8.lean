/-!
# UTF-8

`Utf8.encode` writes text as bytes. `Utf8.decodeLossy` reads any bytes back: well-formed sequences
become their characters, and each longest piece that starts like a sequence but cannot be finished
becomes one replacement character. Bytes are well formed exactly when reading and writing them again
gives the same bytes, which is how `Utf8.decode?` decides.

The reader is an automaton whose state is the sequence under way: the bits so far, how many bytes
are missing, and the range the next byte has to lie in. Only the byte after the first is restricted
beyond `80 … BF`; that restriction is what excludes overlong forms, surrogates and values past
`10FFFF`.
-/

set_option autoImplicit false

namespace LineScript.Utf8

/-! ## Writing -/

/-- The bytes of one character: one to four, by the size of its code point. -/
def encodeChar (c : Char) : List UInt8 :=
  let n := c.toNat
  if n < 0x80 then
    [n.toUInt8]
  else if n < 0x800 then
    [(0xC0 + n / 64).toUInt8, (0x80 + n % 64).toUInt8]
  else if n < 0x10000 then
    [(0xE0 + n / 4096).toUInt8, (0x80 + n / 64 % 64).toUInt8, (0x80 + n % 64).toUInt8]
  else
    [(0xF0 + n / 262144).toUInt8, (0x80 + n / 4096 % 64).toUInt8, (0x80 + n / 64 % 64).toUInt8,
      (0x80 + n % 64).toUInt8]

/-- The bytes of a list of characters. -/
def encodeChars (cs : List Char) : List UInt8 := cs.flatMap encodeChar

/-- The bytes of a text. -/
def encode (text : String) : List UInt8 := encodeChars text.toList

@[simp]
theorem encodeChars_nil : encodeChars [] = [] := rfl

@[simp]
theorem encodeChars_append (a b : List Char) :
    encodeChars (a ++ b) = encodeChars a ++ encodeChars b :=
  List.flatMap_append

/-! ## Reading -/

/-- Stands for bytes that cannot be read. -/
def replacement : Char := '\ufffd'

/-- A sequence of which some bytes have been read. -/
structure Pending where
  /-- The bits read so far. -/
  bits : Nat
  /-- How many bytes follow the next one. -/
  after : Nat
  /-- The least value of the next byte. -/
  low : Nat
  /-- The greatest value of the next byte. -/
  high : Nat

/-- What a byte says when no sequence is under way. -/
inductive Lead where
  | char (c : Char)
  | sequence (p : Pending)
  | invalid

/-- Classifies the first byte of a sequence. -/
def lead (b : Nat) : Lead :=
  if b < 0x80 then .char (Char.ofNat b)
  else if b < 0xC2 then .invalid
  else if b < 0xE0 then .sequence ⟨b - 0xC0, 0, 0x80, 0xBF⟩
  else if b = 0xE0 then .sequence ⟨0, 1, 0xA0, 0xBF⟩
  else if b = 0xED then .sequence ⟨0xD, 1, 0x80, 0x9F⟩
  else if b < 0xF0 then .sequence ⟨b - 0xE0, 1, 0x80, 0xBF⟩
  else if b = 0xF0 then .sequence ⟨0, 2, 0x90, 0xBF⟩
  else if b < 0xF4 then .sequence ⟨b - 0xF0, 2, 0x80, 0xBF⟩
  else if b = 0xF4 then .sequence ⟨4, 2, 0x80, 0x8F⟩
  else .invalid

/-- Reads a byte that no sequence under way takes. -/
def first (b : Nat) : List Char × Option Pending :=
  match lead b with
  | .char c => ([c], none)
  | .sequence p => ([], some p)
  | .invalid => ([replacement], none)

/-- Reads one byte: the characters it completes, and the sequence then under way. -/
def step (state : Option Pending) (b : Nat) : List Char × Option Pending :=
  match state with
  | none => first b
  | some p =>
    if p.low ≤ b ∧ b ≤ p.high then
      let bits := p.bits * 64 + b % 64
      match p.after with
      | 0 => ([Char.ofNat bits], none)
      | left + 1 => ([], some ⟨bits, left, 0x80, 0xBF⟩)
    else
      -- The byte cannot go on with the sequence; it may well start another one.
      let (cs, next) := first b
      (replacement :: cs, next)

/-- Reads bytes from a given state. A sequence cut off by the end is one replacement character. -/
def decodeFrom (state : Option Pending) : List UInt8 → List Char
  | [] => if state.isSome then [replacement] else []
  | b :: rest =>
    let (cs, next) := step state b.toNat
    cs ++ decodeFrom next rest

/-- Reads bytes, with replacement characters for what is not UTF-8. -/
def decodeLossy (bytes : List UInt8) : String := String.ofList (decodeFrom none bytes)

/-- Reads bytes that have to be UTF-8. -/
def decode? (bytes : List UInt8) : Option String :=
  let text := decodeLossy bytes
  if encode text = bytes then some text else none

end LineScript.Utf8
