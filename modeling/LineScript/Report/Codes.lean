/-!
# Error codes

Every error code with a short name and an explanation.
-/

set_option autoImplicit false

namespace LineScript

/-- An error code and what it means. -/
structure CodeEntry where
  code : String
  /-- A few words. -/
  short : String
  /-- A text of several lines. -/
  long : String

/-- A text of the given lines. -/
def textOfLines (lines : List String) : String := String.join (lines.map (· ++ "\n"))

namespace CodeEntry

/-- Every error code, by stage. -/
def all : List CodeEntry := [
  ⟨"OK-L001", "unexpected input", textOfLines [
    "## OK-L001: unexpected input",
    "",
    "The source contains a character that does not start any token, or a quoted",
    "literal that is never closed on its line.",
    "",
    "**Example:**",
    "",
    "    total = $price",
    "",
    "`$` is not part of the language. Logical operators are spelled `and`, `or`",
    "and `not`; `!` only appears in `!=`."]⟩,
  ⟨"OK-P001", "unexpected token", textOfLines [
    "## OK-P001: unexpected token",
    "",
    "The parser needed a particular token (an expression, a closing bracket, a",
    "`:` between a map key and its value, or the end of a line) and found",
    "something else. Parsing stops at the first such error.",
    "",
    "**Examples:**",
    "",
    "    a = 1 +          -- an operator needs a right operand",
    "    xs = [1, 2,]     -- arrays do not allow a trailing comma",
    "    a = 1 b = 2      -- statements go on separate lines"]⟩,
  ⟨"OK-P002", "char literal must be one character", textOfLines [
    "## OK-P002: char literal must be one character",
    "",
    "A char literal in single quotes holds exactly one character after escapes",
    "are decoded.",
    "",
    "**Example:**",
    "",
    "    c = 'ab'",
    "",
    "**Fix:** use a string, `\"ab\"`, or a single character, `'a'`."]⟩,
  ⟨"OK-P003", "invalid escape sequence", textOfLines [
    "## OK-P003: invalid escape sequence",
    "",
    "String and char literals accept these escapes only:",
    "",
    "    \\n  \\t  \\r  \\\\  \\\"  \\'  \\0",
    "",
    "**Example:**",
    "",
    "    path = \"C:\\temp\\new\"   -- \\t and \\n are escapes here",
    "",
    "**Fix:** double the backslash, `\"C:\\\\temp\\\\new\"`, or use a data literal in",
    "backticks, which has no escapes."]⟩,
  ⟨"OK-P004", "number literal out of range", textOfLines [
    "## OK-P004: number literal out of range",
    "",
    "Numbers are exact decimals with at most 38 significant digits. The literal",
    "has more digits than that."]⟩,
  ⟨"OK-C001", "undefined variable", textOfLines [
    "## OK-C001: undefined variable",
    "",
    "A variable is read before any assignment to it.",
    "",
    "**Example:**",
    "",
    "    print(total)",
    "    total = 3",
    "",
    "**Fix:** assign the variable on an earlier line."]⟩,
  ⟨"OK-C002", "unknown function", textOfLines [
    "## OK-C002: unknown function",
    "",
    "Only the built-in functions can be called:",
    "",
    "- `print(args...)` writes its arguments separated by spaces",
    "- `len(x)` returns the number of elements of an array or keys of a map"]⟩,
  ⟨"OK-C003", "wrong number of arguments", textOfLines [
    "## OK-C003: wrong number of arguments",
    "",
    "A built-in was called with the wrong number of arguments. `len` takes",
    "exactly one."]⟩,
  ⟨"OK-C004", "array index is not a number", textOfLines [
    "## OK-C004: array index is not a number",
    "",
    "Arrays are indexed by position. The container is known to be an array but",
    "the key is known to be something other than a number.",
    "",
    "**Example:**",
    "",
    "    xs = [1, 2]",
    "    xs[\"first\"]",
    "",
    "**Fix:** use a number, or a map if you need named keys."]⟩,
  ⟨"OK-C005", "variable reassigned a different kind", textOfLines [
    "## OK-C005: variable reassigned a different kind",
    "",
    "A variable keeps the kind of its first assignment. Arrays and maps may",
    "change their element kind when either side is `any`.",
    "",
    "**Example:**",
    "",
    "    n = 1",
    "    n = \"one\""]⟩,
  ⟨"OK-C006", "invalid assignment target", textOfLines [
    "## OK-C006: invalid assignment target",
    "",
    "The left side of `=` (or `+=`, `-=`, ...) must be a variable or a keyed",
    "element such as `xs[0]` or `m[\"k\"]`.",
    "",
    "**Example:**",
    "",
    "    1 = x",
    "    (a) = 2"]⟩,
  ⟨"OK-C007", "len of a non-container", textOfLines [
    "## OK-C007: len of a non-container",
    "",
    "`len` counts array elements or map keys. Its argument is known to be a",
    "scalar.",
    "",
    "**Example:**",
    "",
    "    len(42)"]⟩,
  ⟨"OK-R001", "type mismatch", textOfLines [
    "## OK-R001: type mismatch",
    "",
    "An instruction got a value of the wrong kind, for example arithmetic on a",
    "string or indexing into a number.",
    "",
    "**Example:**",
    "",
    "    m = \x7b\"a\": 1, \"b\": \"two\"\x7d",
    "    print(m[\"a\"] + m[\"b\"])"]⟩,
  ⟨"OK-R002", "register read before write", textOfLines [
    "## OK-R002: register read before write",
    "",
    "An instruction read a register no earlier instruction wrote. The usual",
    "cause is using the result of `print(...)`, which has no value.",
    "",
    "**Example:**",
    "",
    "    x = print(\"hi\")"]⟩,
  ⟨"OK-R003", "index out of range", textOfLines [
    "## OK-R003: index out of range",
    "",
    "An array index is negative or not less than the array's length.",
    "",
    "**Example:**",
    "",
    "    xs = [1, 2]",
    "    print(xs[2])"]⟩,
  ⟨"OK-R004", "non-integral array index", textOfLines [
    "## OK-R004: non-integral array index",
    "",
    "Array indexes must be whole numbers.",
    "",
    "**Example:**",
    "",
    "    xs = [1, 2]",
    "    print(xs[0.5])"]⟩,
  ⟨"OK-R005", "missing map key", textOfLines [
    "## OK-R005: missing map key",
    "",
    "A map lookup used a key the map does not contain. Keys are compared by",
    "their canonical text, so `m[1.50]` and `m[\"1.5\"]` find the same entry.",
    "",
    "**Example:**",
    "",
    "    m = \x7b\"a\": 1\x7d",
    "    print(m[\"b\"])"]⟩,
  ⟨"OK-R006", "numeric error", textOfLines [
    "## OK-R006: numeric error",
    "",
    "Division or remainder by zero, or a result too large for an exact decimal."]⟩,
  ⟨"OK-R007", "output failed", textOfLines [
    "## OK-R007: output failed",
    "",
    "`print` could not write to its output, for example because stdout was",
    "closed."]⟩,
  ⟨"OK-R008", "step limit exceeded", textOfLines [
    "## OK-R008: step limit exceeded",
    "",
    "The run executed more instructions than `--max-steps` allows."]⟩]

/-- The entry of a code, in upper or lower case. -/
def find? (code : String) : Option CodeEntry :=
  all.find? (fun entry => entry.code.toList.map Char.toUpper == code.toList.map Char.toUpper)

end CodeEntry

end LineScript
