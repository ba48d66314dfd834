import LineScript.Proofs.Machine.Trace

/-!
# What an instruction needs and changes

Each instruction has one lemma that says what its operands held if it was carried out
(`effect_copy`, `effect_arith`, …); proofs about code use these and never open `Instruction.effect`.

`Instruction.dest?`, `Instruction.target?` and `Instruction.reads` are what can be read off an
instruction without running it: the one register it may write, the one index it may jump to, and the
registers it may find empty. `Step.get?_of_ne_dest`, `Step.next` and `empty_of_effect` say that a
run keeps to them.
-/

set_option autoImplicit false

namespace LineScript

/-! ## Results of a computation that may fail -/

section Except

variable {ε α β : Type} {x : Except ε α} {f : α → Except ε β}

/-- What a computation in several parts gave tells what each of its parts gave. With this,
`Instruction.effect` is taken apart once, below. -/
theorem bind_eq_ok_iff {b : β} : x >>= f = .ok b ↔ ∃ a, x = .ok a ∧ f a = .ok b := by
  cases x with
  | error e => simp [bind, Except.bind]
  | ok a => simp [bind, Except.bind]

/-- The failure of a computation is that of its first part, or of the rest after the first part
succeeded. -/
theorem bind_eq_error_iff {e : ε} :
    x >>= f = .error e ↔ x = .error e ∨ ∃ a, x = .ok a ∧ f a = .error e := by
  cases x with
  | error e => simp [bind, Except.bind]
  | ok a => simp [bind, Except.bind]

/-- The end of such a chain. -/
theorem pure_eq_ok_iff {a b : α} : (pure a : Except ε α) = .ok b ↔ a = b := by
  simp [pure, Except.pure]

/-- What ends a chain does not fail. -/
theorem pure_ne_error {a : α} {e : ε} : (pure a : Except ε α) ≠ .error e := by
  simp [pure, Except.pure]

end Except

/-! ## Reading registers -/

namespace Registers

variable {rs : Registers} {r : Register} {v : Value}

/-- Reading a register is looking it up. -/
theorem read_eq_ok_iff : rs.read r = .ok v ↔ rs.get? r = some v := by
  unfold read
  split
  · rename_i w hw
    simp [hw]
  · rename_i hn
    simp [hn]

/-- Reading fails for one reason only, and the fault names the register. -/
theorem read_eq_error_iff {fault : Fault} :
    rs.read r = .error fault ↔ rs.get? r = none ∧ fault = .emptyRegister r := by
  unfold read
  split
  · rename_i w hw
    simp [hw]
  · rename_i hn
    simp [hn, eq_comm]

/-- As an equation of lists, so that the values come with their registers in order. -/
theorem readAll_eq_ok_iff {registers : List Register} {values : List Value} :
    rs.readAll registers = .ok values ↔ registers.map rs.get? = values.map some := by
  induction registers generalizing values with
  | nil => cases values <;> simp [readAll]
  | cons r rest ih =>
    simp only [readAll, bind_eq_ok_iff, read_eq_ok_iff, pure_eq_ok_iff, List.map_cons]
    constructor
    · rintro ⟨v, hv, vs, hvs, rfl⟩
      rw [List.map_cons, hv, ih.1 hvs]
    · intro h
      cases values with
      | nil => cases h
      | cons v vs =>
        obtain ⟨hv, hvs⟩ := List.cons.inj h
        exact ⟨v, hv, vs, ih.2 hvs, rfl⟩

/-- One of the registers is empty. Which one is not said: it is the first, but nothing depends on
it. -/
theorem readAll_eq_error {registers : List Register} {fault : Fault}
    (h : rs.readAll registers = .error fault) :
    ∃ r ∈ registers, rs.get? r = none ∧ fault = .emptyRegister r := by
  -- The first register that is empty ends the reading.
  induction registers with
  | nil => cases h
  | cons r rest ih =>
    simp only [readAll, bind_eq_error_iff, read_eq_error_iff, pure_ne_error] at h
    rcases h with ⟨hr, hf⟩ | ⟨_, _, hrest | ⟨_, _, h⟩⟩
    · exact ⟨r, List.mem_cons_self, hr, hf⟩
    · obtain ⟨q, hq, hget⟩ := ih hrest
      exact ⟨q, List.mem_cons_of_mem _ hq, hget⟩
    · exact absurd h id

end Registers

/-- A copy needs its source. Of the other instructions most ask for a kind of value, so what such
questions come to is told first. -/
theorem Instruction.effect_copy {rs : Registers} {l d : Register} {effect : Effect}
    (h : (copy l d).effect rs = .ok effect) :
    ∃ v, rs.get? l = some v ∧ effect = .write d v := by
  simp only [Instruction.effect, bind_eq_ok_iff, Registers.read_eq_ok_iff, pure_eq_ok_iff] at h
  obtain ⟨v, hv, rfl⟩ := h
  exact ⟨v, hv, rfl⟩

/-! ## Asking for a kind of value -/

namespace Value

/-- Operands of arithmetic are numbers, nothing is converted. -/
theorem asNumber_eq_ok_iff {v : Value} {n : Decimal} : v.asNumber = .ok n ↔ v = .number n := by
  cases v <;> simp [asNumber]

/-- Only texts are joined with texts. -/
theorem asString_eq_ok_iff {v : Value} {s : String} : v.asString = .ok s ↔ v = .string s := by
  cases v <;> simp [asString]

/-- Only data is joined with data. -/
theorem asData_eq_ok_iff {v : Value} {bytes : List UInt8} :
    v.asData = .ok bytes ↔ v = .data bytes := by
  cases v <;> simp [asData]

/-- An index is a whole number, not negative and below the length. -/
theorem position_eq_ok_iff {index : Decimal} {length i : Nat} :
    position index length = .ok i ↔ index.toIndex? = some i ∧ i < length := by
  unfold position
  by_cases hint : index.isInteger
  · rw [if_pos hint]
    cases hindex : index.toIndex? with
    | none => simp
    | some j =>
      by_cases hlt : j < length
      · simp only [if_pos hlt, Except.ok.injEq, Option.some.injEq]
        constructor
        · rintro rfl
          exact ⟨rfl, hlt⟩
        · exact fun h => h.1
      · simp only [if_neg hlt, reduceCtorEq, Option.some.injEq, false_iff, not_and]
        rintro rfl
        exact hlt
  · have hnone : index.toIndex? = none := by simp [Decimal.toIndex?, hint]
    simp [hint, hnone]

/-- What an array gives at an index; any other value gives a fault. -/
theorem getItem_eq_ok_iff {a v : Value} {index : Decimal} :
    a.getItem index = .ok v ↔
      ∃ element items i, a = .array element items ∧ position index items.length = .ok i ∧
        items[i]? = some v := by
  cases a with
  | array element items =>
    simp only [getItem, bind_eq_ok_iff]
    constructor
    · rintro ⟨i, hi, hv⟩
      split at hv
      · rename_i w hw
        obtain rfl := Except.ok.inj hv
        exact ⟨element, items, i, rfl, hi, hw⟩
      · cases hv
    · rintro ⟨_, _, i, heq, hi, hv⟩
      cases heq
      exact ⟨i, hi, by rw [hv]⟩
  | _ => simp [getItem]

/-- The new array, with its element kind widened by the kind of the new item. -/
theorem setItem_eq_ok_iff {a v new : Value} {index : Decimal} :
    a.setItem index v = .ok new ↔
      ∃ element items i, a = .array element items ∧ position index items.length = .ok i ∧
        new = .array (element.widen v.kind) (items.set i v) := by
  cases a with
  | array element items =>
    simp only [setItem, bind_eq_ok_iff, pure_eq_ok_iff]
    constructor
    · rintro ⟨i, hi, rfl⟩
      exact ⟨element, items, i, rfl, hi, rfl⟩
    · rintro ⟨_, _, i, heq, hi, rfl⟩
      cases heq
      exact ⟨i, hi, rfl⟩
  | _ => simp [setItem]

/-- What a map gives for a key. -/
theorem getEntry_eq_ok_iff {m v : Value} {key : String} :
    m.getEntry key = .ok v ↔
      ∃ element entries, m = .map element entries ∧ Entries.get? key entries = some v := by
  cases m with
  | map element entries =>
    simp only [getEntry]
    constructor
    · intro h
      split at h
      · rename_i w hw
        obtain rfl := Except.ok.inj h
        exact ⟨element, entries, rfl, hw⟩
      · cases h
    · rintro ⟨_, _, heq, hv⟩
      cases heq
      rw [hv]
  | _ => simp [getEntry]

/-- The new map. Unlike an array it takes keys that it did not have. -/
theorem setEntry_eq_ok_iff {m v new : Value} {key : String} :
    m.setEntry key v = .ok new ↔
      ∃ element entries, m = .map element entries ∧
        new = .map (element.widen v.kind) (Entries.insert key v entries) := by
  cases m with
  | map element entries =>
    constructor
    · intro h
      exact ⟨element, entries, rfl, (Except.ok.inj h).symm⟩
    · rintro ⟨_, _, heq, rfl⟩
      cases heq
      rfl
  | _ => simp [setEntry]

end Value

/-- Faults of arithmetic are passed on, results are numbers. -/
theorem Fault.ofNumeric_eq_ok_iff {result : Except DecimalError Decimal} {v : Value} :
    Fault.ofNumeric result = .ok v ↔ ∃ n, result = .ok n ∧ v = .number n := by
  cases result <;> simp [Fault.ofNumeric, eq_comm]

/-! ## One lemma for each of the other instructions -/

namespace Instruction

open Registers Value

variable {rs : Registers} {l r d : Register} {effect : Effect}

/-- Both operands are numbers, and the operation succeeds on them. -/
theorem effect_arith {op : Arith} (h : (arith op l r d).effect rs = .ok effect) :
    ∃ a b n, rs.get? l = some (.number a) ∧ rs.get? r = some (.number b) ∧ op.apply a b = .ok n ∧
      effect = .write d (.number n) := by
  simp only [Instruction.effect, bind_eq_ok_iff, read_eq_ok_iff, asNumber_eq_ok_iff,
    Fault.ofNumeric_eq_ok_iff, pure_eq_ok_iff] at h
  obtain ⟨_, hl, a, rfl, _, hr, b, rfl, _, ⟨n, hn, rfl⟩, rfl⟩ := h
  exact ⟨a, b, n, hl, hr, hn, rfl⟩

/-- Both operands are data. -/
theorem effect_combine (h : (combine l r d).effect rs = .ok effect) :
    ∃ a b, rs.get? l = some (.data a) ∧ rs.get? r = some (.data b) ∧
      effect = .write d (.data (a ++ b)) := by
  simp only [Instruction.effect, bind_eq_ok_iff, read_eq_ok_iff, asData_eq_ok_iff,
    pure_eq_ok_iff] at h
  obtain ⟨_, hl, a, rfl, _, hr, b, rfl, rfl⟩ := h
  exact ⟨a, b, hl, hr, rfl⟩

/-- Both operands are texts. -/
theorem effect_concat (h : (concat l r d).effect rs = .ok effect) :
    ∃ a b, rs.get? l = some (.string a) ∧ rs.get? r = some (.string b) ∧
      effect = .write d (.string (a ++ b)) := by
  simp only [Instruction.effect, bind_eq_ok_iff, read_eq_ok_iff, asString_eq_ok_iff,
    pure_eq_ok_iff] at h
  obtain ⟨_, hl, a, rfl, _, hr, b, rfl, rfl⟩ := h
  exact ⟨a, b, hl, hr, rfl⟩

/-- Operands of any kind; whether they can be compared is up to the relation. -/
theorem effect_relate {op : Relation} (h : (relate op l r d).effect rs = .ok effect) :
    ∃ a b holds, rs.get? l = some a ∧ rs.get? r = some b ∧ op.apply a b = .ok holds ∧
      effect = .write d (.bool holds) := by
  simp only [Instruction.effect, bind_eq_ok_iff, read_eq_ok_iff, pure_eq_ok_iff] at h
  obtain ⟨a, hl, b, hr, holds, hop, rfl⟩ := h
  exact ⟨a, b, holds, hl, hr, hop, rfl⟩

/-- The operand is a number that can be negated, which the smallest one cannot. -/
theorem effect_negate (h : (negate l d).effect rs = .ok effect) :
    ∃ a n, rs.get? l = some (.number a) ∧ a.neg = .ok n ∧ effect = .write d (.number n) := by
  simp only [Instruction.effect, bind_eq_ok_iff, read_eq_ok_iff, asNumber_eq_ok_iff,
    Fault.ofNumeric_eq_ok_iff, pure_eq_ok_iff] at h
  obtain ⟨_, hl, a, rfl, _, ⟨n, hn, rfl⟩, rfl⟩ := h
  exact ⟨a, n, hl, hn, rfl⟩

/-- Every value counts as true or as false, so a value is all it needs. -/
theorem effect_not (h : (not l d).effect rs = .ok effect) :
    ∃ v, rs.get? l = some v ∧ effect = .write d (.bool (!v.isTrue)) := by
  simp only [Instruction.effect, bind_eq_ok_iff, read_eq_ok_iff, pure_eq_ok_iff] at h
  obtain ⟨v, hv, rfl⟩ := h
  exact ⟨v, hv, rfl⟩

/-- The operand has a size. -/
theorem effect_len (h : (len l d).effect rs = .ok effect) :
    ∃ v size, rs.get? l = some v ∧ v.size = .ok size ∧
      effect = .write d (.number (.ofNat size)) := by
  simp only [Instruction.effect, bind_eq_ok_iff, read_eq_ok_iff, pure_eq_ok_iff] at h
  obtain ⟨v, hv, size, hsize, rfl⟩ := h
  exact ⟨v, size, hv, hsize, rfl⟩

/-- All elements are there. The element kind is the one of the instruction, whatever they are. -/
theorem effect_makeArray {kind : Kind} {elements : List Register}
    (h : (makeArray kind elements d).effect rs = .ok effect) :
    ∃ items, elements.map rs.get? = items.map some ∧ effect = .write d (.array kind items) := by
  simp only [Instruction.effect, bind_eq_ok_iff, readAll_eq_ok_iff, pure_eq_ok_iff] at h
  obtain ⟨items, hitems, rfl⟩ := h
  exact ⟨items, hitems, rfl⟩

/-- The index is a number and the container an array that has it. -/
theorem effect_getItem (h : (getItem l r d).effect rs = .ok effect) :
    ∃ a i v, rs.get? l = some a ∧ rs.get? r = some (.number i) ∧ a.getItem i = .ok v ∧
      effect = .write d v := by
  simp only [Instruction.effect, bind_eq_ok_iff, read_eq_ok_iff, asNumber_eq_ok_iff,
    pure_eq_ok_iff] at h
  obtain ⟨_, hr, i, rfl, a, hl, v, hv, rfl⟩ := h
  exact ⟨a, i, v, hl, hr, hv, rfl⟩

/-- The instruction writes the register of the array itself. -/
theorem effect_setItem {value : Register} (h : (setItem l r value).effect rs = .ok effect) :
    ∃ a i v new, rs.get? l = some a ∧ rs.get? r = some (.number i) ∧ rs.get? value = some v ∧
      a.setItem i v = .ok new ∧ effect = .write l new := by
  simp only [Instruction.effect, bind_eq_ok_iff, read_eq_ok_iff, asNumber_eq_ok_iff,
    pure_eq_ok_iff] at h
  obtain ⟨_, hr, i, rfl, v, hv, a, hl, new, hnew, rfl⟩ := h
  exact ⟨a, i, v, new, hl, hr, hv, hnew, rfl⟩

/-- Any value is a key, by its text. -/
theorem effect_getEntry (h : (getEntry l r d).effect rs = .ok effect) :
    ∃ m k v, rs.get? l = some m ∧ rs.get? r = some k ∧ m.getEntry k.key = .ok v ∧
      effect = .write d v := by
  simp only [Instruction.effect, bind_eq_ok_iff, read_eq_ok_iff, pure_eq_ok_iff] at h
  obtain ⟨k, hr, m, hl, v, hv, rfl⟩ := h
  exact ⟨m, k, v, hl, hr, hv, rfl⟩

/-- The instruction writes the register of the map itself. -/
theorem effect_setEntry {value : Register} (h : (setEntry l r value).effect rs = .ok effect) :
    ∃ m k v new, rs.get? l = some m ∧ rs.get? r = some k ∧ rs.get? value = some v ∧
      m.setEntry k.key v = .ok new ∧ effect = .write l new := by
  simp only [Instruction.effect, bind_eq_ok_iff, read_eq_ok_iff, pure_eq_ok_iff] at h
  obtain ⟨k, hr, v, hv, m, hl, new, hnew, rfl⟩ := h
  exact ⟨m, k, v, new, hl, hr, hv, hnew, rfl⟩

/-- All arguments are there; the line is all that printing needs them for. -/
theorem effect_print {arguments : List Register} (h : (print arguments).effect rs = .ok effect) :
    ∃ values, arguments.map rs.get? = values.map some ∧ effect = .print (printedLine values) := by
  simp only [Instruction.effect, bind_eq_ok_iff, readAll_eq_ok_iff, pure_eq_ok_iff] at h
  obtain ⟨values, hvalues, rfl⟩ := h
  exact ⟨values, hvalues, rfl⟩

/-- The condition decides whether to jump. -/
theorem effect_jumpIf {target : Nat} (h : (jumpIf l target).effect rs = .ok effect) :
    ∃ v, rs.get? l = some v ∧ effect = if v.isTrue then .jump target else .proceed := by
  simp only [Instruction.effect, bind_eq_ok_iff, read_eq_ok_iff, pure_eq_ok_iff] at h
  obtain ⟨v, hv, rfl⟩ := h
  exact ⟨v, hv, rfl⟩

/-- As `effect_jumpIf`, the other way round. -/
theorem effect_jumpUnless {target : Nat} (h : (jumpUnless l target).effect rs = .ok effect) :
    ∃ v, rs.get? l = some v ∧ effect = if v.isTrue then .proceed else .jump target := by
  simp only [Instruction.effect, bind_eq_ok_iff, read_eq_ok_iff, pure_eq_ok_iff] at h
  obtain ⟨v, hv, rfl⟩ := h
  exact ⟨v, hv, rfl⟩

end Instruction

/-! ## What can be read off an instruction -/

namespace Instruction

/-- The register that an instruction writes. -/
def dest? : Instruction → Option Register
  | .load _ result => some result
  | .copy _ target => some target
  | .arith _ _ _ result => some result
  | .combine _ _ result => some result
  | .concat _ _ result => some result
  | .relate _ _ _ result => some result
  | .negate _ result => some result
  | .not _ result => some result
  | .len _ result => some result
  | .makeArray _ _ result => some result
  | .getItem _ _ result => some result
  | .setItem array _ _ => some array
  | .makeMap _ result => some result
  | .getEntry _ _ result => some result
  | .setEntry map _ _ => some map
  | .print _ => none
  | .jump _ => none
  | .jumpIf _ _ => none
  | .jumpUnless _ _ => none

/-- The index that an instruction may jump to. -/
def target? : Instruction → Option Nat
  | .jump target => some target
  | .jumpIf _ target => some target
  | .jumpUnless _ target => some target
  | _ => none

/-- The registers that an instruction reads. -/
def reads : Instruction → List Register
  | .load _ _ => []
  | .copy source _ => [source]
  | .arith _ left right _ => [left, right]
  | .combine left right _ => [left, right]
  | .concat left right _ => [left, right]
  | .relate _ left right _ => [left, right]
  | .negate operand _ => [operand]
  | .not operand _ => [operand]
  | .len operand _ => [operand]
  | .makeArray _ elements _ => elements
  | .getItem array index _ => [array, index]
  | .setItem array index value => [array, index, value]
  | .makeMap _ _ => []
  | .getEntry map key _ => [map, key]
  | .setEntry map key value => [map, key, value]
  | .print arguments => arguments
  | .jump _ => []
  | .jumpIf condition _ => [condition]
  | .jumpUnless condition _ => [condition]

variable {rs : Registers} {i : Instruction} {effect : Effect}

/-- An effect that can be read off an instruction. -/
def Allows (i : Instruction) : Effect → Prop
  | .write r _ => i.dest? = some r
  | .jump target => i.target? = some target ∧ i.dest? = none
  | .print _ => i.dest? = none
  | .proceed => i.dest? = none

/-- What an instruction does is what can be read off it: it writes no other register and goes on at
no other index. -/
theorem allows_of_effect (h : i.effect rs = .ok effect) : i.Allows effect := by
  cases i with
  | load v d => cases h; rfl
  | copy l d => obtain ⟨_, _, rfl⟩ := effect_copy h; rfl
  | arith op l r d => obtain ⟨_, _, _, _, _, _, rfl⟩ := effect_arith h; rfl
  | combine l r d => obtain ⟨_, _, _, _, rfl⟩ := effect_combine h; rfl
  | concat l r d => obtain ⟨_, _, _, _, rfl⟩ := effect_concat h; rfl
  | relate op l r d => obtain ⟨_, _, _, _, _, _, rfl⟩ := effect_relate h; rfl
  | negate l d => obtain ⟨_, _, _, _, rfl⟩ := effect_negate h; rfl
  | not l d => obtain ⟨_, _, rfl⟩ := effect_not h; rfl
  | len l d => obtain ⟨_, _, _, _, rfl⟩ := effect_len h; rfl
  | makeArray kind elements d => obtain ⟨_, _, rfl⟩ := effect_makeArray h; rfl
  | getItem l r d => obtain ⟨_, _, _, _, _, _, rfl⟩ := effect_getItem h; rfl
  | setItem l r value => obtain ⟨_, _, _, _, _, _, _, _, rfl⟩ := effect_setItem h; rfl
  | makeMap kind d => cases h; rfl
  | getEntry l r d => obtain ⟨_, _, _, _, _, _, rfl⟩ := effect_getEntry h; rfl
  | setEntry l r value => obtain ⟨_, _, _, _, _, _, _, _, rfl⟩ := effect_setEntry h; rfl
  | print arguments => obtain ⟨_, _, rfl⟩ := effect_print h; rfl
  | jump target => cases h; exact ⟨rfl, rfl⟩
  | jumpIf l target =>
    obtain ⟨v, _, rfl⟩ := effect_jumpIf h
    by_cases hv : v.isTrue <;> simp [hv, Allows, target?, dest?]
  | jumpUnless l target =>
    obtain ⟨v, _, rfl⟩ := effect_jumpUnless h
    by_cases hv : v.isTrue <;> simp [hv, Allows, target?, dest?]

/-- An instruction with a destination writes it, if it does anything. -/
theorem writes_of_effect {r : Register} (hr : i.dest? = some r) (h : i.effect rs = .ok effect) :
    ∃ v, effect = .write r v := by
  have hallows := allows_of_effect h
  cases effect with
  | write q v =>
    obtain rfl : r = q := Option.some.inj (hr.symm.trans hallows)
    exact ⟨v, rfl⟩
  | jump target => exact absurd (hr.symm.trans hallows.2) (Option.some_ne_none r)
  | print line => exact absurd (hr.symm.trans hallows) (Option.some_ne_none r)
  | proceed => exact absurd (hr.symm.trans hallows) (Option.some_ne_none r)

end Instruction

/-! ## Empty registers

A computation on values never finds a register empty, so an instruction that does reads the
register. -/

section Values

variable {q : Register} {v w : Value}

/-- One lemma of this kind for each computation that instructions are made of, all used in
`empty_of_effect`. -/
theorem asNumber_ne_empty : v.asNumber ≠ .error (.emptyRegister q) := by
  cases v <;> simp [Value.asNumber]

theorem asString_ne_empty : v.asString ≠ .error (.emptyRegister q) := by
  cases v <;> simp [Value.asString]

theorem asData_ne_empty : v.asData ≠ .error (.emptyRegister q) := by
  cases v <;> simp [Value.asData]

theorem ofNumeric_ne_empty {result : Except DecimalError Decimal} :
    Fault.ofNumeric result ≠ .error (.emptyRegister q) := by
  cases result <;> simp [Fault.ofNumeric]

/-- Values of different kinds cannot be ordered, and that is the only fault. -/
theorem order_ne_empty : v.order w ≠ .error (.emptyRegister q) := by
  intro h
  cases v <;> cases w <;> cases h

/-- Equality never fails, and the other relations only where the order does. -/
theorem relation_ne_empty {op : Relation} : op.apply v w ≠ .error (.emptyRegister q) := by
  have h : ∀ f : Ordering → Bool, (v.order w).map f ≠ .error (.emptyRegister q) := by
    intro f hf
    cases ho : v.order w with
    | error fault =>
      rw [ho] at hf
      obtain rfl : fault = .emptyRegister q := Except.error.inj hf
      exact order_ne_empty ho
    | ok o =>
      rw [ho] at hf
      cases hf
  cases op with
  | equal => simp [Relation.apply]
  | notEqual => simp [Relation.apply]
  | greater => exact h _
  | greaterEqual => exact h _
  | less => exact h _
  | lessEqual => exact h _

theorem size_ne_empty : v.size ≠ .error (.emptyRegister q) := by
  cases v <;> simp [Value.size]

/-- A bad index is told by its own faults. -/
theorem position_ne_empty {index : Decimal} {length : Nat} :
    Value.position index length ≠ .error (.emptyRegister q) := by
  unfold Value.position
  split
  · split
    · split <;> simp
    · simp
  · simp

theorem getItem_ne_empty {index : Decimal} : v.getItem index ≠ .error (.emptyRegister q) := by
  cases v with
  | array element items =>
    simp only [Value.getItem, ne_eq, bind_eq_error_iff, position_ne_empty, false_or,
      not_exists, not_and]
    intro i _
    split <;> simp
  | _ => simp [Value.getItem]

theorem setItem_ne_empty {index : Decimal} : v.setItem index w ≠ .error (.emptyRegister q) := by
  cases v with
  | array element items =>
    simp only [Value.setItem, ne_eq, bind_eq_error_iff, position_ne_empty, pure_ne_error, and_false,
      exists_false, or_self, not_false_eq_true]
  | _ => simp [Value.setItem]

theorem getEntry_ne_empty {key : String} : v.getEntry key ≠ .error (.emptyRegister q) := by
  cases v with
  | map element entries =>
    simp only [Value.getEntry]
    split <;> simp
  | _ => simp [Value.getEntry]

theorem setEntry_ne_empty {key : String} : v.setEntry key w ≠ .error (.emptyRegister q) := by
  cases v <;> simp [Value.setEntry]

end Values

namespace Instruction

/-- An instruction that finds a register empty reads it. -/
theorem empty_of_effect {rs : Registers} {i : Instruction} {q : Register}
    (h : i.effect rs = .error (.emptyRegister q)) : q ∈ i.reads ∧ rs.get? q = none := by
  have hall : ∀ {l : List Register}, rs.readAll l = .error (.emptyRegister q) →
      q ∈ l ∧ rs.get? q = none := by
    intro l hl
    obtain ⟨r, hr, hn, hq⟩ := Registers.readAll_eq_error hl
    obtain rfl : q = r := Fault.emptyRegister.inj hq
    exact ⟨hr, hn⟩
  -- Reading aside, no part of an instruction fails with an empty register, so one of its reads has.
  cases i <;>
    simp only [effect, bind_eq_error_iff, Registers.read_eq_error_iff, asNumber_ne_empty,
      asString_ne_empty, asData_ne_empty, ofNumeric_ne_empty, relation_ne_empty, size_ne_empty,
      getItem_ne_empty, setItem_ne_empty, getEntry_ne_empty, setEntry_ne_empty, pure_ne_error,
      Fault.emptyRegister.injEq, and_false, exists_false, false_or, or_false, reduceCtorEq] at h
  all_goals first
    | exact hall h
    | (simp only [reads, List.mem_cons, List.not_mem_nil, or_false]; grind)

end Instruction

/-! ## Steps -/

namespace State

variable {code : List Instruction} {s t : State} {i : Instruction}

/-- A step writes no register but the one that its instruction names. -/
theorem Step.get?_of_ne_dest (h : Step code s t) (hi : code[s.next]? = some i) {q : Register}
    (hq : i.dest? ≠ some q) : t.registers.get? q = s.registers.get? q := by
  obtain ⟨j, hj, hjt⟩ := h
  obtain rfl : i = j := Option.some.inj (hi.symm.trans hj)
  obtain ⟨effect, he, hp⟩ := execute_eq_none_iff.1 hjt
  have hshape := Instruction.allows_of_effect he
  have ht := congrArg Prod.fst hp
  -- Only a write changes a register, and it goes to the destination.
  cases effect with
  | write r v =>
    subst ht
    have hne : q ≠ r := fun e => hq (e ▸ hshape)
    exact (Registers.get?_set _ _ _ _).trans (if_neg hne)
  | print line => subst ht; rfl
  | jump target => subst ht; rfl
  | proceed => subst ht; rfl

/-- A step goes on behind its instruction or at the index that the instruction names. -/
theorem Step.next (h : Step code s t) (hi : code[s.next]? = some i) :
    t.next = s.next + 1 ∨ i.target? = some t.next := by
  obtain ⟨j, hj, hjt⟩ := h
  obtain rfl : i = j := Option.some.inj (hi.symm.trans hj)
  obtain ⟨effect, he, hp⟩ := execute_eq_none_iff.1 hjt
  have hshape := Instruction.allows_of_effect he
  have ht := congrArg Prod.fst hp
  cases effect with
  | write r v => subst ht; exact Or.inl rfl
  | print line => subst ht; exact Or.inl rfl
  | jump target => subst ht; exact Or.inr hshape.1
  | proceed => subst ht; exact Or.inl rfl

/-- An instruction that fails writes no register. -/
theorem registers_of_fault {fault : Fault} (h : s.execute i = (t, some fault)) :
    t.registers = s.registers := by
  unfold execute at h
  split at h
  · exact congrArg State.registers (congrArg Prod.fst h).symm
  · rename_i effect _
    have ht := congrArg Prod.fst h
    have hf := congrArg Prod.snd h
    -- Of the effects only printing fails, and it leaves the registers alone.
    cases effect with
    | write r v => cases hf
    | print line => subst ht; rfl
    | jump target => cases hf
    | proceed => cases hf

/-- A register that holds something holds something ever after. -/
theorem Step.filled (h : Step code s t) {q : Register} (hq : s.registers.get? q ≠ none) :
    t.registers.get? q ≠ none := by
  obtain ⟨j, hj, hjt⟩ := h
  obtain ⟨effect, _, hp⟩ := execute_eq_none_iff.1 hjt
  have ht := congrArg Prod.fst hp
  cases effect with
  | write r v =>
    subst ht
    change (s.registers.set r v).get? q ≠ none
    rw [Registers.get?_set]
    split
    · simp
    · exact hq
  | print line => subst ht; exact hq
  | jump target => subst ht; exact hq
  | proceed => subst ht; exact hq

end State

end LineScript
