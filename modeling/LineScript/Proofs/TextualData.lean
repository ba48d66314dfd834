import LineScript.Proofs.Value.InOrder

/-!
# Data is text

Bytes that are not UTF-8 are displayed with replacement characters, and different bytes may then
look the same. In the run of a source this does not happen: all data there is, in registers and
inside of other values, is the UTF-8 of some text (`Source.data_is_text`).

Data comes from literals, whose bytes are those of their text, and from joining data. Bytes of a
text behind the bytes of another one are the bytes of both texts, one behind the other
(`Utf8.encode_append`), so a character is never cut and none comes up where two values meet. All
else that an instruction writes is no data, or comes out of the registers.
-/

set_option autoImplicit false

namespace LineScript

open State

theorem Utf8.encode_append (a b : String) : encode (a ++ b) = encode a ++ encode b := by
  rw [encode, String.toList_append, encodeChars_append]
  rfl

/-! ## Values inside of values -/

namespace Value

/-- The value on the right is the one on the left, or an element inside of it at any depth. -/
inductive Contains : Value → Value → Prop
  | self (v : Value) : Contains v v
  | item {element : Kind} {items : List Value} {item v : Value} (hitem : item ∈ items)
      (h : Contains item v) : Contains (.array element items) v
  | entry {element : Kind} {entries : List (String × Value)} {p : String × Value} {v : Value}
      (hp : p ∈ entries) (h : Contains p.2 v) : Contains (.map element entries) v

/-- All data in the value is the UTF-8 of a text. -/
def Textual (v : Value) : Prop :=
  ∀ bytes, v.Contains (.data bytes) → ∃ text, bytes = Utf8.encode text

variable {a m v new : Value} {element : Kind}

/-- Data holds nothing but itself. -/
theorem textual_data_iff {bytes : List UInt8} :
    (Value.data bytes).Textual ↔ ∃ text, bytes = Utf8.encode text := by
  constructor
  · exact fun h => h bytes (.self _)
  · intro h _ hcontains
    cases hcontains
    exact h

/-- An array holds what its items hold, and is no data itself. -/
theorem textual_array_iff {items : List Value} :
    (Value.array element items).Textual ↔ ∀ item ∈ items, item.Textual := by
  constructor
  · exact fun h item hitem bytes hbytes => h bytes (.item hitem hbytes)
  · intro h bytes hbytes
    cases hbytes with
    | item hitem hin => exact h _ hitem bytes hin

theorem textual_map_iff {entries : List (String × Value)} :
    (Value.map element entries).Textual ↔ ∀ p ∈ entries, p.2.Textual := by
  constructor
  · exact fun h p hp bytes hbytes => h bytes (.entry hp hbytes)
  · intro h bytes hbytes
    cases hbytes with
    | entry hp hin => exact h _ hp bytes hin

/-- A scalar that is no data has none in it. -/
theorem textual_of_isScalar (h : v.isScalar = true)
    (hdata : ∀ bytes, v ≠ .data bytes) : v.Textual := by
  intro bytes hbytes
  cases hbytes with
  | self => exact absurd rfl (hdata bytes)
  | item => cases h
  | entry => cases h

theorem textual_bool (b : Bool) : (Value.bool b).Textual := textual_of_isScalar rfl nofun

theorem textual_number (n : Decimal) : (Value.number n).Textual := textual_of_isScalar rfl nofun

/-- What is taken out of a container was inside it. -/
theorem Textual.getItem {index : Decimal} (h : a.Textual)
    (hv : a.getItem index = .ok v) : v.Textual := by
  obtain ⟨_, items, i, rfl, _, hi⟩ := getItem_eq_ok_iff.1 hv
  exact textual_array_iff.1 h v (List.mem_of_getElem? hi)

theorem Textual.getEntry {key : String} (h : m.Textual)
    (hv : m.getEntry key = .ok v) : v.Textual := by
  obtain ⟨_, entries, rfl, hget⟩ := getEntry_eq_ok_iff.1 hv
  obtain ⟨k, hk⟩ := mem_of_get? hget
  exact textual_map_iff.1 h _ hk

/-- All that the new container holds was in the old one or in the value that was put in. -/
theorem Textual.setItem {index : Decimal} (h : a.Textual) (hv : v.Textual)
    (hnew : a.setItem index v = .ok new) : new.Textual := by
  obtain ⟨_, items, i, rfl, _, rfl⟩ := setItem_eq_ok_iff.1 hnew
  refine textual_array_iff.2 fun item hitem => ?_
  rcases List.mem_or_eq_of_mem_set hitem with hold | rfl
  · exact textual_array_iff.1 h item hold
  · exact hv

theorem Textual.setEntry {key : String} (h : m.Textual) (hv : v.Textual)
    (hnew : m.setEntry key v = .ok new) : new.Textual := by
  obtain ⟨_, entries, rfl, rfl⟩ := setEntry_eq_ok_iff.1 hnew
  refine textual_map_iff.2 fun p hp => ?_
  rcases mem_insert hp with rfl | hold
  · exact hv
  · exact textual_map_iff.1 h p hold

/-- The encodings of two texts, one behind the other, are the encoding of the joined text. -/
theorem Textual.combine {front back : List UInt8} (hfront : (Value.data front).Textual)
    (hback : (Value.data back).Textual) : (Value.data (front ++ back)).Textual := by
  obtain ⟨a, rfl⟩ := textual_data_iff.1 hfront
  obtain ⟨b, rfl⟩ := textual_data_iff.1 hback
  exact textual_data_iff.2 ⟨a ++ b, (Utf8.encode_append a b).symm⟩

/-- Data in a source is the encoding of what stands between its backticks. -/
theorem Denotable.textual (h : v.Denotable) : v.Textual := by
  rcases h.cases with ⟨_, _, _, rfl⟩ | ⟨_, rfl⟩ | ⟨_, rfl⟩ | ⟨_, rfl⟩ | ⟨text, rfl⟩
  · exact textual_number _
  · exact textual_bool _
  · exact textual_of_isScalar rfl nofun
  · exact textual_of_isScalar rfl nofun
  · exact textual_data_iff.2 ⟨text, rfl⟩

/-! ## Texts of data -/

variable {front back : List UInt8}

/-- Encoded text is shown as it was; nothing in it has to be replaced. -/
theorem display_encode (text : String) : (Value.data (Utf8.encode text)).display = text := by
  rw [display, Utf8.decodeLossy_encode]

/-- Data that is text is displayed without a loss. -/
theorem encode_display (h : (Value.data front).Textual) :
    Utf8.encode (Value.data front).display = front := by
  obtain ⟨text, rfl⟩ := textual_data_iff.1 h
  rw [display_encode]

/-- Of arbitrary bytes this is not true: the end of the one and the beginning of the other may make
a character that neither of them shows. -/
theorem display_combine (hfront : (Value.data front).Textual) (hback : (Value.data back).Textual) :
    (Value.data (front ++ back)).display =
      (Value.data front).display ++ (Value.data back).display := by
  obtain ⟨a, rfl⟩ := textual_data_iff.1 hfront
  obtain ⟨b, rfl⟩ := textual_data_iff.1 hback
  rw [← Utf8.encode_append, display_encode, display_encode, display_encode]

end Value

/-! ## Runs -/

/-- What an instruction writes is textual, if what it loads and what it reads is. -/
theorem Instruction.textual_of_effect {rs : Registers} {i : Instruction} {r : Register} {v : Value}
    (hload : i.Loads Value.Textual) (hrs : ∀ q u, rs.get? q = some u → u.Textual)
    (h : i.effect rs = .ok (.write r v)) : v.Textual := by
  -- Only `load` and `combine` write data that was not in a register before.
  cases i with
  | load u d => cases h; exact hload
  | combine l r d =>
    obtain ⟨_, _, ha, hb, heq⟩ := effect_combine h
    cases heq
    exact (hrs _ _ ha).combine (hrs _ _ hb)
  | copy l d => obtain ⟨_, hu, heq⟩ := effect_copy h; cases heq; exact hrs _ _ hu
  | makeArray kind elements d =>
    obtain ⟨items, hitems, heq⟩ := effect_makeArray h
    cases heq
    refine Value.textual_array_iff.2 fun item hitem => ?_
    obtain ⟨q, _, hq⟩ := register_of_mem hitems hitem
    exact hrs q item hq
  | makeMap kind d => cases h; exact Value.textual_map_iff.2 (List.forall_mem_nil _)
  | getItem a k d =>
    obtain ⟨_, _, _, ha, _, hu, heq⟩ := effect_getItem h
    cases heq
    exact (hrs _ _ ha).getItem hu
  | getEntry m k d =>
    obtain ⟨_, _, _, hm, _, hu, heq⟩ := effect_getEntry h
    cases heq
    exact (hrs _ _ hm).getEntry hu
  | setItem a k u =>
    obtain ⟨_, _, _, _, ha, _, hu, hnew, heq⟩ := effect_setItem h
    cases heq
    exact (hrs _ _ ha).setItem (hrs _ _ hu) hnew
  | setEntry m k u =>
    obtain ⟨_, _, _, _, hm, _, hu, hnew, heq⟩ := effect_setEntry h
    cases heq
    exact (hrs _ _ hm).setEntry (hrs _ _ hu) hnew
  | arith op l r d =>
    obtain ⟨_, _, _, _, _, _, heq⟩ := effect_arith h
    cases heq
    exact Value.textual_number _
  | negate l d =>
    obtain ⟨_, _, _, _, heq⟩ := effect_negate h
    cases heq
    exact Value.textual_number _
  | len l d => obtain ⟨_, _, _, _, heq⟩ := effect_len h; cases heq; exact Value.textual_number _
  | relate op l r d =>
    obtain ⟨_, _, _, _, _, _, heq⟩ := effect_relate h
    cases heq
    exact Value.textual_bool _
  | not l d => obtain ⟨_, _, heq⟩ := effect_not h; cases heq; exact Value.textual_bool _
  | concat l r d =>
    obtain ⟨_, _, _, _, heq⟩ := effect_concat h
    cases heq
    exact Value.textual_of_isScalar rfl nofun
  | print arguments => obtain ⟨_, _, heq⟩ := effect_print h; cases heq
  | jump target => cases h
  | jumpIf l target => obtain ⟨_, _, heq⟩ := effect_jumpIf h; split at heq <;> cases heq
  | jumpUnless l target => obtain ⟨_, _, heq⟩ := effect_jumpUnless h; split at heq <;> cases heq

/-- All values in registers are textual. -/
def State.Textual (s : State) : Prop := ∀ r v, s.registers.get? r = some v → v.Textual

theorem State.Step.textual {code : List Instruction} {s t : State}
    (hcode : ∀ i ∈ code, i.Loads Value.Textual) (hstep : Step code s t)
    (h : s.Textual) : t.Textual :=
  hstep.forall_effects h
    fun i _ _ hi he => i.textual_of_effect (hcode i (List.mem_of_getElem? hi)) h he

theorem State.Reaches.textual {code : List Instruction} {s t : State}
    (hcode : ∀ i ∈ code, i.Loads Value.Textual) (hr : Reaches code s t)
    (h : s.Textual) : t.Textual := by
  induction hr with
  | refl => exact h
  | tail _ hstep ih => exact hstep.textual hcode ih

/-- The registers of a compiled source hold textual values only, at every moment of every run. -/
theorem Source.textual_of_reaches {source : String} {routine : Routine}
    (h : Source.compile source = .ok routine) {sink : Sink} {t : State}
    (hr : Reaches routine.code (routine.start sink) t) : t.Textual := by
  refine hr.textual (fun i hi => (loads_of_compile h i hi).mono fun _ => Value.Denotable.textual)
    fun r v hv => ?_
  change (Registers.empty _).get? r = some v at hv
  rw [Registers.get?_empty] at hv
  cases hv

/-- **Data is text.** All data in the run of a source, in registers and inside of other values, is
the UTF-8 of a text, and this text is how it is displayed and what it is as a key. Joined data is
printed as the texts of its parts, one behind the other, and only the same bytes are the same
key. -/
theorem Source.data_is_text (source : String) (routine : Routine)
    (hcompile : Source.compile source = .ok routine) (sink : Sink) (t : State)
    (ht : Reaches routine.code (routine.start sink) t) :
    (∀ r v bytes, t.registers.get? r = some v → v.Contains (.data bytes) →
      ∃ text, bytes = Utf8.encode text ∧
        (Value.data bytes).display = text ∧ (Value.data bytes).key = text) ∧
      (∀ l r d front back, t.registers.get? l = some (.data front) →
        t.registers.get? r = some (.data back) →
        ∃ u, t.execute (.combine l r d) = (u, none) ∧
          u.registers.get? d = some (.data (front ++ back)) ∧
          (Instruction.print [d]).effect u.registers =
            .ok (.print ((Value.data front).display ++ (Value.data back).display ++ "\n"))) ∧
      ∀ u, Reaches routine.code (routine.start sink) u →
        ∀ q r v w a b, t.registers.get? q = some v →
        u.registers.get? r = some w → v.Contains (.data a) → w.Contains (.data b) →
        ((Value.data a).key = (Value.data b).key ↔ a = b) := by
  have htextual := textual_of_reaches hcompile ht
  refine ⟨fun r v bytes hv hbytes => ?_, fun l r d front back hl hr => ?_,
    fun u hu q r v w a b hv hw ha hb => ?_⟩
  · obtain ⟨text, rfl⟩ := htextual r v hv bytes hbytes
    exact ⟨text, rfl, Value.display_encode text, Value.display_encode text⟩
  · have heffect : (Instruction.combine l r d).effect t.registers =
        .ok (.write d (.data (front ++ back))) := by
      simp only [Instruction.effect, Registers.read_eq_ok_iff.2 hl, Registers.read_eq_ok_iff.2 hr,
        Value.asData, bind, Except.bind, pure, Except.pure]
    have hd : (t.registers.set d (.data (front ++ back))).get? d = some (.data (front ++ back)) :=
      (Registers.get?_set _ _ _ _).trans (if_pos rfl)
    refine ⟨_, execute_eq_none_iff.2 ⟨_, heffect, rfl⟩, hd, ?_⟩
    simp only [Instruction.effect, Registers.readAll, Registers.read_eq_ok_iff.2 hd, bind,
      Except.bind, pure, Except.pure]
    rw [printedLine, List.map_singleton, Value.display_combine (htextual l _ hl) (htextual r _ hr)]
    rfl
  · constructor
    · intro hkey
      have hfirst := Value.encode_display (Value.textual_data_iff.2 (htextual q v hv a ha))
      have hsecond :=
        Value.encode_display (Value.textual_data_iff.2 (textual_of_reaches hcompile hu r w hw b hb))
      rw [← hfirst, ← hsecond]
      exact congrArg Utf8.encode hkey
    · rintro rfl
      rfl

/-- The code of an array of data in an array and of joined data. -/
def joinsData : Routine :=
  ⟨[.load (.data [0xC3, 0xA9]) 0, .makeArray .data [0] 1, .load (.data [0xC3, 0xA9]) 2,
    .load (.data [0x21]) 3, .combine 2 3 4, .makeArray .any [1, 4] 5], 6⟩

set_option maxRecDepth 8192 in
/-- The letter `é` takes two bytes. In front of the instruction that joins, it is found inside of
the array; joined and printed, it stands in front of the other text, and it is another key than
that. -/
theorem Source.data_is_text_twoBytes :
    Source.compile "[[`é`], `é` + `!`]" = .ok joinsData ∧
      ∃ t, Reaches joinsData.code (joinsData.start (Sink.new none)) t ∧
        t.registers.get? 1 = some (.array .data [.data [0xC3, 0xA9]]) ∧
        (∃ text, [0xC3, 0xA9] = Utf8.encode text ∧ (Value.data [0xC3, 0xA9]).display = text ∧
          (Value.data [0xC3, 0xA9]).key = text) ∧
        (∃ u, t.execute (.combine 2 3 4) = (u, none) ∧
          u.registers.get? 4 = some (.data ([0xC3, 0xA9] ++ [0x21])) ∧
          (Instruction.print [4]).effect u.registers = .ok (.print "é!\n")) ∧
        (Value.data [0xC3, 0xA9]).key ≠ (Value.data [0x21]).key := by
  have hscan : Token.scan "[[`é`], `é` + `!`]" = .ok [⟨.bracketOpen, "[", false, ⟨0, 1⟩⟩,
      ⟨.bracketOpen, "[", false, ⟨1, 2⟩⟩, ⟨.dataLiteral, "é", false, ⟨2, 6⟩⟩,
      ⟨.bracketClose, "]", false, ⟨6, 7⟩⟩, ⟨.comma, ",", false, ⟨7, 8⟩⟩,
      ⟨.dataLiteral, "é", false, ⟨9, 13⟩⟩, ⟨.plus, "+", false, ⟨14, 15⟩⟩,
      ⟨.dataLiteral, "!", false, ⟨16, 19⟩⟩, ⟨.bracketClose, "]", false, ⟨19, 20⟩⟩,
      ⟨.endOfFile, "", true, ⟨20, 20⟩⟩] := by
    with_unfolding_all rfl
  have hcompile : Source.compile "[[`é`], `é` + `!`]" = .ok joinsData := by
    rw [Source.compile, Source.parse, hscan]
    cbv
  let t : State := ⟨⟨[some (.data [0xC3, 0xA9]), some (.array .data [.data [0xC3, 0xA9]]),
    some (.data [0xC3, 0xA9]), some (.data [0x21]), none, none]⟩, 4, Sink.new none⟩
  have hrun : runFor joinsData.code 4 (joinsData.start (Sink.new none)) = (t, .stopped) := rfl
  have hreaches : Reaches joinsData.code (joinsData.start (Sink.new none)) t := runFor_spec hrun
  obtain ⟨hinside, hjoined, hkeys⟩ := data_is_text _ _ hcompile _ _ hreaches
  have hprinted : (Value.data [0xC3, 0xA9]).display ++ (Value.data [0x21]).display ++
      "\n" = "é!\n" := by
    rw [show [0xC3, 0xA9] = Utf8.encode "é" from rfl, show [0x21] = Utf8.encode "!" from rfl,
      Value.display_encode, Value.display_encode]
    rfl
  refine ⟨hcompile, t, hreaches, rfl,
    hinside 1 _ _ rfl (.item List.mem_cons_self (.self _)), ?_, ?_⟩
  · rw [← hprinted]
    exact hjoined 2 3 4 _ _ rfl rfl
  · exact fun hkey =>
      absurd ((hkeys t hreaches 2 3 _ _ _ _ rfl rfl (.self _) (.self _)).1 hkey) (by decide)

end LineScript
