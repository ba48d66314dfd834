import LineScript.Command.Execute
import LineScript.Proofs.Grammar.Places
import LineScript.Proofs.Grammar.Statements
import LineScript.Proofs.Json.Reader

/-!
# The dump of a program can be read back

`Program.readDump?` makes expressions of the text of a dump. It knows every variant by its name and
takes nothing but what it expects there: numbers in the one text that writing them gives, data as
bytes, a character as a string of one. Of what is read of tokens, it gives back all expressions
(`Expr.ofJson?_toJson`), since the literals in it are values of literal tokens: scalars, and none of
the numbers that are written but not read.

Only the spans are not in a dump, and they have no part in the code. So programs with the same dump
have the same expressions and the same code, or the same error (`Program.dump_read_back`).
-/

set_option autoImplicit false

namespace LineScript

/-! ## Reading a dump -/

/-- The operator with a given word. -/
def BinaryOp.ofJson? : Json → Option BinaryOp
  | .string name => BinaryOp.all.find? (·.name = name)
  | _ => none

/-- The operator with a given word. -/
def UnaryOp.ofJson? : Json → Option UnaryOp
  | .string name => UnaryOp.ofName? name
  | _ => none

/-- A byte. -/
def Json.byte? : Json → Option UInt8
  | .number (.ofNat n) => if n < 256 then some n.toUInt8 else none
  | _ => none

/-- The literals of a program are scalars; its arrays and maps are expressions. -/
def Value.ofJson? : Json → Option Value
  | .object [("Number", .string text)] =>
    match Decimal.parse text with
    | .ok n => if n.render = text then some (.number n) else none
    | .error _ => none
  | .object [("Bool", .bool b)] => some (.bool b)
  | .object [("String", .string s)] => some (.string s)
  | .object [("Char", .string s)] =>
    match s.toList with
    | [c] => some (.char c)
    | _ => none
  | .object [("Data", .array bytes)] => (bytes.mapM Json.byte?).map .data
  | _ => none

mutual

/-- The expression of a variant. -/
def Expr.ofJson? : Json → Option Expr
  | .object [("Literal", value)] => (Value.ofJson? value).map .literal
  | .object [("Identifier", .string name)] => some (.ident name)
  | .object [("Key", .object [("expr", base), ("key", key)])] => do
    some (.element (← ofJson? base) (← ofJson? key))
  | .object [("Array", .array items)] => (listOfJson? items).map .array
  | .object [("Map", .array pairs)] => (pairsOfJson? pairs).map .map
  | .object [("Call", .object [("name", .string name), ("args", .array args)])] =>
    (listOfJson? args).map (.call name)
  | .object [("Group", inner)] => (ofJson? inner).map .group
  | .object [("Unary", .object [("op", op), ("expr", operand)])] => do
    some (.unary (← UnaryOp.ofJson? op) (← ofJson? operand))
  | .object [("Binary", .object [("left", left), ("op", op), ("right", right)])] => do
    some (.binary (← ofJson? left) (← BinaryOp.ofJson? op) (← ofJson? right))
  | _ => none

/-- Expressions. -/
def Expr.listOfJson? : List Json → Option (List Expr)
  | [] => some []
  | item :: rest => do some ((← ofJson? item) :: (← listOfJson? rest))

/-- Pairs of expressions. -/
def Expr.pairsOfJson? : List Json → Option (List (Expr × Expr))
  | [] => some []
  | .array [key, value] :: rest => do
    some ((← ofJson? key, ← ofJson? value) :: (← pairsOfJson? rest))
  | _ => none

end

/-- The expressions of the statements of a program. -/
def Program.ofJson? : Json → Option (List Expr)
  | .object [("statements", .array statements)] => Expr.listOfJson? statements
  | _ => none

/-- The expressions of the statements of the program with a given dump. -/
def Program.readDump? (text : String) : Option (List Expr) := (Json.read? text).bind Program.ofJson?

/-! ## What is written is read -/

theorem BinaryOp.ofJson?_name (op : BinaryOp) : ofJson? (.string op.name) = some op := by
  rcases op with (_ | _ | _ | _ | _) | (_ | _ | _ | _ | _ | _) | _ | _ | _ | (_ | _ | _ | _ | _) <;>
    rfl

theorem UnaryOp.ofJson?_name (op : UnaryOp) : ofJson? (.string op.name) = some op := by
  cases op <;> rfl

theorem Json.byte?_nat (b : UInt8) : Json.byte? (.nat b.toNat) = some b := by
  have hb : b.toNat.toUInt8 = b := UInt8.ofNat_toNat
  have hbyte : Json.byte? (.nat b.toNat) = if b.toNat < 256 then some b.toNat.toUInt8 else none :=
    rfl
  rw [hbyte, if_pos b.toNat_lt, hb]

/-- The literals that tokens stand for are read back. -/
theorem Value.ofJson?_toJson {v : Value} (h : v.Denotable) : Value.ofJson? v.toJson = some v := by
  rcases h.cases with ⟨n, hcanonical, hmin, rfl⟩ | ⟨b, rfl⟩ | ⟨s, rfl⟩ | ⟨c, rfl⟩ | ⟨text, rfl⟩
  · have hparse := Decimal.parse_render hcanonical hmin
    show (match Decimal.parse n.render with
      | .ok m => if m.render = n.render then some (Value.number m) else none
      | .error _ => none) = some (.number n)
    rw [hparse]
    exact if_pos rfl
  · rfl
  · rfl
  · show (match (String.singleton c).toList with
      | [c] => some (Value.char c)
      | _ => none) = some (.char c)
    rw [String.toList_singleton]
  · have hbytes := Json.mapM_written fun b (_ : b ∈ Utf8.encode text) => Json.byte?_nat b
    rw [List.map_id'] at hbytes
    show (((Utf8.encode text).map fun b => Json.nat b.toNat).mapM Json.byte?).map Value.data = _
    rw [hbytes, Option.map_some]

namespace Expr

theorem listOfJson?_listToJson {items : List Expr} (h : ∀ e ∈ items, ofJson? e.toJson = some e) :
    listOfJson? (listToJson items) = some items := by
  induction items with
  | nil => rw [listToJson, listOfJson?]
  | cons e items ih =>
    rw [listToJson, listOfJson?, h e List.mem_cons_self,
      ih fun x hx => h x (List.mem_cons_of_mem e hx)]
    rfl

theorem pairsOfJson?_pairsToJson {entries : List (Expr × Expr)}
    (h : ∀ q ∈ entries, ofJson? q.1.toJson = some q.1 ∧ ofJson? q.2.toJson = some q.2) :
    pairsOfJson? (pairsToJson entries) = some entries := by
  induction entries with
  | nil => rw [pairsToJson, pairsOfJson?]
  | cons q entries ih =>
    obtain ⟨hkey, hvalue⟩ := h q List.mem_cons_self
    rw [pairsToJson, pairsOfJson?, hkey, hvalue, ih fun x hx => h x (List.mem_cons_of_mem q hx)]
    rfl

/-- Expressions that can be written down are read back from their dump. -/
theorem ofJson?_toJson {e : Expr} (h : e.WellFormed) : ofJson? e.toJson = some e := by
  induction e using Expr.induct with
  | literal v =>
    have hv : v.Denotable := h.self
    show (Value.ofJson? v.toJson).map Expr.literal = _
    rw [Value.ofJson?_toJson hv, Option.map_some]
  | ident name => rfl
  | element base key ihb ihk =>
    obtain ⟨-, hbase, hkey⟩ := all_element_iff.1 h
    show (do some (Expr.element (← ofJson? base.toJson) (← ofJson? key.toJson))) = _
    rw [ihb hbase, ihk hkey]
    rfl
  | array items ih =>
    have hitems := listOfJson?_listToJson fun e he => ih e he ((all_array_iff.1 h).2 e he)
    show (listOfJson? (listToJson items)).map Expr.array = _
    rw [hitems, Option.map_some]
  | map entries ih =>
    have hentries := pairsOfJson?_pairsToJson fun q hq =>
      ⟨(ih q hq).1 ((all_map_iff.1 h).2 q hq).1, (ih q hq).2 ((all_map_iff.1 h).2 q hq).2⟩
    show (pairsOfJson? (pairsToJson entries)).map Expr.map = _
    rw [hentries, Option.map_some]
  | call name args ih =>
    have hargs := listOfJson?_listToJson fun e he => ih e he ((all_call_iff.1 h).2 e he)
    show (listOfJson? (listToJson args)).map (Expr.call name) = _
    rw [hargs, Option.map_some]
  | group inner ih =>
    show (ofJson? inner.toJson).map Expr.group = _
    rw [ih (all_group_iff.1 h).2, Option.map_some]
  | unary op operand ih =>
    show (do some (Expr.unary (← UnaryOp.ofJson? (.string op.name)) (← ofJson? operand.toJson))) = _
    rw [UnaryOp.ofJson?_name, ih (all_unary_iff.1 h).2]
    rfl
  | binary left op right ihl ihr =>
    obtain ⟨-, hleft, hright⟩ := all_binary_iff.1 h
    show (do some (Expr.binary (← ofJson? left.toJson) (← BinaryOp.ofJson? (.string op.name))
      (← ofJson? right.toJson))) = _
    rw [ihl hleft, BinaryOp.ofJson?_name, ihr hright]
    rfl

theorem listToJson_eq (items : List Expr) : listToJson items = items.map toJson := by
  induction items with
  | nil => rw [listToJson, List.map_nil]
  | cons e items ih => rw [listToJson, ih, List.map_cons]

end Expr

theorem Utf8.decode?_encode (text : String) : decode? (encode text) = some text := by
  unfold decode?
  dsimp only
  rw [decodeLossy_encode, if_pos rfl]

namespace Program

variable {p q : Program}

/-- The program is read of some tokens. -/
def Parsed (p : Program) : Prop := ∃ tokens, (ofTokens tokens).outcome = .ok p

/-- The text of the program as data. -/
def dump (p : Program) : String := p.toJson.renderPretty ++ "\n"

theorem parsed_of_parse {source : String} (h : Source.parse source = .ok p) : p.Parsed := by
  unfold Source.parse at h
  split at h
  · cases h
  · rename_i tokens _
    dsimp only at h
    split at h
    · cases h
    · rename_i program hread
      split at h
      · obtain rfl := Except.ok.inj h
        exact ⟨tokens, hread⟩
      · cases h

theorem readDump?_dump (h : ∀ s ∈ p, s.expr.WellFormed) :
    readDump? p.dump = some (p.map Statement.expr) := by
  have hstatements : p.map (fun s => s.expr.toJson) = Expr.listToJson (p.map Statement.expr) := by
    rw [Expr.listToJson_eq, List.map_map]
    rfl
  rw [readDump?, dump, Json.read?_renderPretty, Option.bind_some]
  show Expr.listOfJson? (p.map fun s => s.expr.toJson) = _
  rw [hstatements]
  apply Expr.listOfJson?_listToJson
  intro e he
  obtain ⟨s, hs, rfl⟩ := List.mem_map.1 he
  exact Expr.ofJson?_toJson (h s hs)

/-- The code of a program, or the error, does not depend on the places of its statements. -/
theorem lower_congr (h : q.map Statement.expr = p.map Statement.expr) :
    q.lower.mapError Lowering.Located.error = p.lower.mapError Lowering.Located.error := by
  have hexprs : List.Forall₂ Eq (q.map Statement.expr) (p.map Statement.expr) := by
    rw [List.forall₂_eq_eq_eq]
    exact h
  rw [List.forall₂_map_left_iff, List.forall₂_map_right_iff] at hexprs
  have halike : List.Forall₂ (Statement.Alike fun _ _ => True) q p :=
    hexprs.imp fun _ _ hexpr => ⟨hexpr, trivial⟩
  rcases (lower_alike halike).ok_or_error with ⟨r, _, hq, hp, rfl⟩ | ⟨e, f, hq, hp, he⟩
  · rw [hq, hp]
  · rw [hq, hp]
    exact congrArg Except.error he.error

theorem perform_ast {read : Command.Reader} {file source : String}
    (hfile : Command.readSource read file = .ok source) (hparse : Source.parse source = .ok p) :
    Command.perform read (.ast file) = ⟨Utf8.encode p.dump, none⟩ := by
  rw [Command.perform, hfile]
  dsimp only
  rw [hparse]
  rfl

/-- **A dump says everything but the spans.** Of every program that is read of tokens its dump gives
back the expressions, and that dump is what the command prints. So two programs with the same dump
have the same expressions, and they come to the same code or to the same error. -/
theorem dump_read_back (h : p.Parsed) :
    readDump? p.dump = some (p.map Statement.expr) ∧
    (∀ (read : Command.Reader) (file source : String), Command.readSource read file = .ok source →
      Source.parse source = .ok p →
      (Command.perform read (.ast file)).failure = none ∧
      Utf8.decode? (Command.perform read (.ast file)).stdout = some p.dump) ∧
    ∀ q : Program, q.Parsed → q.dump = p.dump →
      q.map Statement.expr = p.map Statement.expr ∧
      q.lower.mapError Lowering.Located.error = p.lower.mapError Lowering.Located.error := by
  have hread : ∀ {q : Program}, q.Parsed → readDump? q.dump = some (q.map Statement.expr) :=
    fun ⟨_, hq⟩ =>
    readDump?_dump (wellFormed_of_ofTokens hq)
  refine ⟨hread h, fun read file source hfile hparse => ?_, fun q hq hdump => ?_⟩
  · rw [perform_ast hfile hparse]
    refine ⟨rfl, ?_⟩
    dsimp only
    rw [Utf8.decode?_encode]
  · have hexprs : q.map Statement.expr = p.map Statement.expr := by
      apply Option.some.inj
      rw [← hread hq, ← hread h, hdump]
    exact ⟨hexprs, lower_congr hexprs⟩

set_option maxRecDepth 8192 in
/-- Two layouts of one program. Its number is canonical however it is written, its data are bytes,
and only the spans differ. -/
theorem dump_read_back_twoLayouts :
    ∃ p q : Program, Source.parse "[1.50,`\u00e9`]" = .ok p ∧
      Source.parse "[1.5,`\u00e9`]" = .ok q ∧
      p.Parsed ∧ q.Parsed ∧ q.dump = p.dump ∧ p.map Statement.span ≠ q.map Statement.span ∧
      readDump? p.dump = some [.array [.literal (.number ⟨15, 1⟩), .literal (.data [0xc3, 0xa9])]] ∧
      Command.readSource (fun _ => .ok (Utf8.encode "[1.50,`\u00e9`]")) "a" =
        .ok "[1.50,`\u00e9`]" ∧
      Utf8.decode? (Command.perform (fun _ => .ok (Utf8.encode "[1.50,`\u00e9`]"))
        (.ast "a")).stdout = some p.dump ∧ q.map Statement.expr = p.map Statement.expr ∧
      q.lower.mapError Lowering.Located.error = p.lower.mapError Lowering.Located.error := by
  have hp : Source.parse "[1.50,`\u00e9`]" =
      .ok [⟨.array [.literal (.number ⟨15, 1⟩), .literal (.data [0xc3, 0xa9])], ⟨0, 11⟩⟩] := by
    with_unfolding_all rfl
  have hq : Source.parse "[1.5,`\u00e9`]" =
      .ok [⟨.array [.literal (.number ⟨15, 1⟩), .literal (.data [0xc3, 0xa9])], ⟨0, 10⟩⟩] := by
    with_unfolding_all rfl
  have hfile : Command.readSource (fun _ => .ok (Utf8.encode "[1.50,`\u00e9`]")) "a" =
      .ok "[1.50,`\u00e9`]" := by
    simp only [Command.readSource, Utf8.decode?_encode]
  obtain ⟨hread, hprinted, hsame⟩ := dump_read_back (parsed_of_parse hp)
  obtain ⟨hexprs, hlower⟩ := hsame _ (parsed_of_parse hq) rfl
  exact ⟨_, _, hp, hq, parsed_of_parse hp, parsed_of_parse hq, rfl, by decide, hread, hfile,
    (hprinted _ _ _ hfile hp).2, hexprs, hlower⟩

end Program

end LineScript
