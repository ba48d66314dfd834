import LineScript.Command.Execute
import LineScript.Proofs.Json.Reader
import LineScript.Proofs.Text.Position

/-!
# Reports for programs say everything on one line

A program that reads the reports of a failed command takes them line by line, reads each line as
JSON, and looks up the members it knows by name. Members that it does not know, members that are
there twice, and members of another type than it expects are refused: `Diagnostic.Record.ofJson?` is
that reader. It gets back all that is in a report, whatever characters there are in its texts
(`Diagnostic.faithful_record`), and the lines of a whole list of reports are told apart by the
newlines between them, since no line has one inside (`Command.Failure.json_reports_read_back`).
-/

set_option autoImplicit false

namespace LineScript

namespace Json

/-! ## One line -/

/-- No control characters, and in particular no newline. -/
def Visible (text : List Char) : Prop := ∀ x ∈ text, 0x20 ≤ x.toNat

theorem visible_of_all {text : List Char} (h : text.all (fun x => decide (0x20 ≤ x.toNat)) = true) :
    Visible text := by
  simpa [Visible] using h

theorem visible_nil : Visible [] := List.forall_mem_nil _

theorem visible_cons {c : Char} {text : List Char} (hc : 0x20 ≤ c.toNat) (h : Visible text) :
    Visible (c :: text) :=
  List.forall_mem_cons.2 ⟨hc, h⟩

theorem visible_append {text more : List Char} (h : Visible text) (hmore : Visible more) :
    Visible (text ++ more) :=
  List.forall_mem_append.2 ⟨h, hmore⟩

theorem visible_flatMap {α : Type} {f : α → List Char} {xs : List α} (h : ∀ x ∈ xs, Visible (f x)) :
    Visible (xs.flatMap f) := by
  intro c hc
  obtain ⟨x, hx, hc⟩ := List.mem_flatMap.1 hc
  exact h x hx c hc

theorem le_digitChar : ∀ n < 16, 0x20 ≤ (Nat.digitChar n).toNat := by decide

/-- Letters behind a backslash are no control characters. -/
theorem le_of_letterChar? {letter c : Char} (h : letterChar? letter = some c) :
    0x20 ≤ letter.toNat := by
  by_contra hlt
  have hne : ∀ mark : Char, 0x20 ≤ mark.toNat → letter ≠ mark := by
    rintro mark hmark rfl
    exact hlt hmark
  simp +decide [letterChar?, hne] at h

/-- Control characters are escaped, and no escape has one. -/
theorem visible_escapeChar (c : Char) : Visible (escapeChar c) := by
  rcases escapeChar_cases c with ⟨letter, hletter, heq⟩ | ⟨-, heq⟩ | ⟨⟨-, -, hprint⟩, heq⟩
  · rw [heq]
    exact visible_cons (by decide) (visible_cons (le_of_letterChar? hletter) visible_nil)
  · have hhigh := le_digitChar (c.toNat / 16 % 16) (Nat.mod_lt _ (by decide))
    have hlow := le_digitChar (c.toNat % 16) (Nat.mod_lt _ (by decide))
    have hpair : Visible (hexPair c.toNat) := visible_cons hhigh (visible_cons hlow visible_nil)
    rw [heq]
    have hmark : Visible ['\\', 'u', '0', '0'] := visible_of_all rfl
    exact visible_append hmark hpair
  · rw [heq]
    exact visible_cons (Nat.le_of_not_lt hprint) visible_nil

theorem visible_quote (s : String) : Visible (quote s) := by
  have hend : Visible ['\x22'] := visible_cons (by decide) visible_nil
  exact visible_cons (by decide)
    (visible_append (visible_flatMap fun c _ => visible_escapeChar c) hend)

theorem visible_digits (n : Nat) : Visible (Nat.toDigits 10 n) := by
  intro x hx
  have := Decimal.isDigit_iff.1 (isDigit_toDigits n x hx)
  omega

theorem visible_integer (n : Int) : Visible (integer n) := by
  unfold integer
  split
  · exact visible_cons (by decide) (visible_digits _)
  · exact visible_digits _

/-- Visible pieces with commas between them and brackets around them. -/
theorem visible_enclosed {α : Type} {f : α → List Char} {opening closing : Char} {x : α}
    {xs : List α} (ho : 0x20 ≤ opening.toNat) (hc : 0x20 ≤ closing.toNat)
    (h : ∀ y ∈ x :: xs, Visible (f y)) :
    Visible (opening :: (f x ++ xs.flatMap (fun y => ',' :: ([] ++ f y)) ++ [closing])) := by
  have hpieces : Visible (xs.flatMap fun y => ',' :: ([] ++ f y)) :=
    visible_flatMap fun y hy => visible_cons (by decide) (h y (List.mem_cons_of_mem x hy))
  exact visible_cons ho
    (visible_append (visible_append (h x List.mem_cons_self) hpieces) (visible_cons hc visible_nil))

/-- A value on one line is just that. -/
theorem visible_compact (j : Json) : Visible j.compact := by
  induction j using induct with
  | null =>
    rw [compact]
    exact visible_of_all rfl
  | bool b =>
    rw [compact]
    cases b <;> exact visible_of_all rfl
  | number n =>
    rw [compact]
    exact visible_integer n
  | string s =>
    rw [compact]
    exact visible_quote s
  | array items ih =>
    cases items with
    | nil =>
      rw [compact, compactItems]
      exact visible_of_all rfl
    | cons item rest =>
      rw [compact, compactItems_cons]
      exact visible_enclosed (by decide) (by decide) ih
  | object members ih =>
    cases members with
    | nil =>
      rw [compact, compactMembers]
      exact visible_of_all rfl
    | cons member rest =>
      rw [compact, compactMembers_cons]
      exact visible_enclosed (by decide) (by decide) fun m hm =>
        visible_append (visible_quote m.1) (visible_cons (by decide) (ih m hm))

/-! ## Members by name -/

/-- The text of a string. -/
def string? : Json → Option String
  | .string s => some s
  | _ => none

/-- A natural number. -/
def nat? : Json → Option Nat
  | .number (.ofNat n) => some n
  | _ => none

/-- The items of an array. -/
def list? {α : Type} (read : Json → Option α) : Json → Option (List α)
  | .array items => items.mapM read
  | _ => none

/-- The members of an object, if their names are among the known ones and no name is there twice. -/
def members? (known : List String) : Json → Option (List (String × Json))
  | .object members =>
    let names := members.map Prod.fst
    if names.Nodup ∧ names ⊆ known then some members else none
  | _ => none

/-- A member that has to be there. -/
def required {α : Type} (members : List (String × Json)) (name : String)
    (read : Json → Option α) : Option α :=
  (members.lookup name).bind read

/-- A member that may be missing. -/
def possible {α : Type} (members : List (String × Json)) (name : String) (read : Json → Option α) :
    Option (Option α) :=
  match members.lookup name with
  | none => some none
  | some value => (read value).map some

end Json

/-- What a program gets to know about a label. -/
structure Label.Record where
  start : Nat
  stop : Nat
  message : String
  position : Option Lines.Position

/-- What a program gets to know about a report. -/
structure Diagnostic.Record where
  severity : String
  code : Option String
  message : String
  labels : List Label.Record
  instruction : Option Nat
  notes : List String
  suggestion : Option String

/-- The members of a label. -/
def Label.Record.names : List String := ["start", "end", "message", "line", "col"]

/-- Reads a label. Line and column are both there or both missing. -/
def Label.Record.ofJson? (j : Json) : Option Label.Record := do
  let members ← j.members? names
  let start ← Json.required members "start" Json.nat?
  let stop ← Json.required members "end" Json.nat?
  let message ← Json.required members "message" Json.string?
  let line ← Json.possible members "line" Json.nat?
  let column ← Json.possible members "col" Json.nat?
  let position ← match line, column with
    | none, none => some none
    | some line, some column => some (some ⟨line, column⟩)
    | _, _ => none
  some ⟨start, stop, message, position⟩

/-- The members of a report. -/
def Diagnostic.Record.names : List String :=
  ["severity", "code", "message", "labels", "instruction", "notes", "suggestion"]

/-- Reads a report. -/
def Diagnostic.Record.ofJson? (j : Json) : Option Diagnostic.Record := do
  let members ← j.members? names
  let severity ← Json.required members "severity" Json.string?
  let code ← Json.possible members "code" Json.string?
  let message ← Json.required members "message" Json.string?
  let labels ← Json.required members "labels" (Json.list? Label.Record.ofJson?)
  let instruction ← Json.possible members "instruction" Json.nat?
  let notes ← Json.required members "notes" (Json.list? Json.string?)
  let suggestion ← Json.possible members "suggestion" Json.string?
  some ⟨severity, code, message, labels, instruction, notes, suggestion⟩

/-- All that is in a label; its place is known if the source is. -/
def Label.contents (source : Option String) (label : Label) : Label.Record :=
  ⟨label.span.start, label.span.stop, label.message, source.map (Lines.locate · label.span.start)⟩

/-- All that is in a report. -/
def Diagnostic.contents (d : Diagnostic) : Diagnostic.Record :=
  ⟨"error", d.code, d.message, d.labels.map (Label.contents d.source), d.instruction,
    d.notes, d.suggestion⟩

namespace Json

theorem members?_eq {known : List String} {members : List (String × Json)}
    (h : (members.map Prod.fst).Sublist known) (hknown : known.Nodup) :
    members? known (.object members) = some members :=
  if_pos ⟨hknown.sublist h, h.subset⟩

theorem names_optional (name : String) (value : Option Json) :
    ((optional name value).map Prod.fst).Sublist [name] := by
  cases value with
  | none => exact List.nil_sublist _
  | some value => exact List.Sublist.refl _

theorem lookup_optional (name key : String) (value : Option Json) :
    (optional name value).lookup key = if key = name then value else none := by
  cases value with
  | none => rw [optional, List.lookup_nil, ite_self]
  | some value =>
    by_cases h : key = name
    · rw [optional, if_pos h, h, List.lookup_cons_self]
    · rw [optional, if_neg h, List.lookup_cons, beq_false_of_ne h, List.lookup_nil]

variable {α : Type} {members : List (String × Json)} {name : String} {read : Json → Option α}

theorem required_eq {value : Json} {a : α} (h : members.lookup name = some value)
    (hread : read value = some a) : required members name read = some a := by
  rw [required, h, Option.bind_some, hread]

theorem possible_eq {write : α → Json} {v : Option α} (h : members.lookup name = v.map write)
    (hread : ∀ a, read (write a) = some a) : possible members name read = some v := by
  rw [possible, h]
  cases v with
  | none => rfl
  | some a =>
    dsimp only [Option.map_some]
    rw [hread, Option.map_some]

end Json

/-- A label is read back, with its place where the source is known and without one where it is
not. -/
theorem Label.decoded (source : Option String) (label : Label) :
    Label.Record.ofJson? (label.toJson source) = some (label.contents source) := by
  have hknown : Label.Record.names.Nodup := by decide
  cases source with
  | none =>
    have hnames : ["start", "end", "message"].Sublist Label.Record.names := by decide
    rw [Label.Record.ofJson?, Label.toJson, Json.members?_eq _ hknown]
    · rfl
    · exact hnames
  | some source =>
    have hnames : ["start", "end", "message", "line", "col"].Sublist Label.Record.names :=
      List.Sublist.refl _
    rw [Label.Record.ofJson?, Label.toJson, Json.members?_eq _ hknown]
    · rfl
    · exact hnames

/-- A report is read back, and what it does not have is not there. -/
theorem Diagnostic.decoded (d : Diagnostic) :
    Diagnostic.Record.ofJson? d.toJson = some d.contents := by
  have hknown : Diagnostic.Record.names.Nodup := by decide
  have hread : ∀ s, Json.string? (.string s) = some s := fun _ => rfl
  have hcount : ∀ n, Json.nat? (Json.nat n) = some n := fun _ => rfl
  have hlabels : Json.list? Label.Record.ofJson? (.array (d.labels.map (Label.toJson d.source))) =
      some (d.labels.map (Label.contents d.source)) :=
    Json.mapM_written fun label _ => label.decoded d.source
  have hnotes : Json.list? Json.string? (.array (d.notes.map .string)) = some d.notes := by
    rw [Json.list?, Json.mapM_written fun note _ => hread note, List.map_id']
  rw [toJson]
  generalize hmembers : [("severity", Json.string "error")] ++ _ ++ _ ++ _ ++ _ ++ _ = members
  have hnames : (members.map Prod.fst).Sublist Record.names := by
    have hplain : ∀ names : List String, names.Sublist names := List.Sublist.refl
    rw [← hmembers, List.map_append, List.map_append, List.map_append, List.map_append,
      List.map_append]
    exact (((((hplain ["severity"]).append (Json.names_optional _ _)).append
      (hplain ["message", "labels"])).append (Json.names_optional _ _)).append
      (hplain ["notes"])).append (Json.names_optional _ _)
  -- Looking up a name passes over the members of other names, be they there or not.
  have hseverity : members.lookup "severity" = some (.string "error") := by
    simp [← hmembers]
  have hcode : members.lookup "code" = d.code.map .string := by
    simp [← hmembers, List.lookup_append, Json.lookup_optional, List.lookup_cons]
  have hmessage : members.lookup "message" = some (.string d.message) := by
    simp [← hmembers, List.lookup_append, Json.lookup_optional, List.lookup_cons]
  have hlist : members.lookup "labels" = some (.array (d.labels.map (Label.toJson d.source))) := by
    simp [← hmembers, List.lookup_append, Json.lookup_optional, List.lookup_cons]
  have hinstruction : members.lookup "instruction" = d.instruction.map Json.nat := by
    simp [← hmembers, List.lookup_append, Json.lookup_optional, List.lookup_cons]
  have hremarks : members.lookup "notes" = some (.array (d.notes.map .string)) := by
    simp [← hmembers, List.lookup_append, Json.lookup_optional, List.lookup_cons]
  have hsuggestion : members.lookup "suggestion" = d.suggestion.map .string := by
    simp [← hmembers, List.lookup_append, Json.lookup_optional, List.lookup_cons]
  rw [Record.ofJson?, Json.members?_eq hnames hknown]
  simp only [Option.bind_eq_bind, Option.bind_some, Json.required_eq hseverity (hread _),
    Json.possible_eq hcode hread, Json.required_eq hmessage (hread _),
    Json.required_eq hlist hlabels, Json.possible_eq hinstruction hcount,
    Json.required_eq hremarks hnotes, Json.possible_eq hsuggestion hread]
  rfl

/-! ## Reports -/

/-- The text is one line of JSON, and it says what the report says. -/
structure Diagnostic.Faithful (d : Diagnostic) (line : String) : Prop where
  visible : Json.Visible line.toList
  decoded : ∃ members, Json.read? line = some (.object members) ∧
    Diagnostic.Record.ofJson? (.object members) = some d.contents

theorem Diagnostic.faithful_record (d : Diagnostic) : d.Faithful d.record where
  visible := by
    rw [record, Json.render, String.toList_ofList]
    exact Json.visible_compact d.toJson
  decoded := ⟨_, Json.read?_render d.toJson, d.decoded⟩

theorem Json.Visible.newline_notMem {text : List Char} (h : Json.Visible text) : '\n' ∉ text := by
  intro hmem
  exact absurd (h _ hmem) (by decide)

/-- Lines that are written one after the other are told apart by the newlines behind them. -/
theorem splitAtEach_textOfLines {lines : List String} (h : ∀ line ∈ lines, '\n' ∉ line.toList) :
    splitAtEach '\n' (textOfLines lines).toList = lines.map String.toList ++ [[]] := by
  induction lines with
  | nil => rfl
  | cons line lines ih =>
    have hline : (textOfLines (line :: lines)).toList =
        line.toList ++ '\n' :: (textOfLines lines).toList := by
      rw [textOfLines, List.map_cons, String.join_cons, String.toList_append, String.toList_append,
        List.append_assoc]
      rfl
    rw [hline, splitAtEach_append (h line List.mem_cons_self),
      ih fun l hl => h l (List.mem_cons_of_mem line hl)]
    rfl

namespace Command

/-- The reports of a failure, with its source where it has one. -/
def Failure.reports (f : Failure) : List Diagnostic :=
  f.diagnostics.map fun d => { d with source := f.source.or d.source }

theorem Failure.render_json (f : Failure) (color : Bool) :
    f.render true color = textOfLines (f.reports.map Diagnostic.record) := by
  rw [render, textOfLines, reports, List.map_map, List.map_map]
  congr 1
  apply List.map_congr_left
  intro d _
  cases f.source with
  | none => rfl
  | some source => rfl

/-- A report on one line has no control character and is read as an object, which has all that is in
the report and nothing else. So the reports of a failure are its lines, one each and in order, and a
reader gets back all of them. -/
theorem Failure.json_reports_read_back :
    (∀ d : Diagnostic, d.Faithful d.record) ∧
    ∀ (f : Failure) (color : Bool), ∃ lines : List String,
      splitAtEach '\n' (f.render true color).toList = lines.map String.toList ++ [[]] ∧
      List.Forall₂ Diagnostic.Faithful f.reports lines := by
  refine ⟨Diagnostic.faithful_record, fun f color => ⟨f.reports.map Diagnostic.record, ?_, ?_⟩⟩
  · rw [f.render_json]
    apply splitAtEach_textOfLines
    intro line hline
    obtain ⟨d, -, rfl⟩ := List.mem_map.1 hline
    exact d.faithful_record.visible.newline_notMem
  · rw [List.forall₂_map_right_iff, List.forall₂_same]
    exact fun d _ => d.faithful_record

end Command

end LineScript
