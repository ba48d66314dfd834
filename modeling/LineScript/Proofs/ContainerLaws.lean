import LineScript.Proofs.Normalization
import LineScript.Proofs.Value.InOrder
import LineScript.Proofs.Value.Place
import Mathlib.Data.List.Permutation

/-!
# Reading what was stored

What an element instruction finds behind a store is the stored value where the store went, and what
it found before everywhere else. Where a store goes is decided by the value of the index in an
array, and by the text of the key in a map.

The laws are proved for values first. An index reaches an array through its position, which two
indices share only if they are equal (`getItem_setItem_of_ne`), and three things can be said of an
index: it has a position in the array, it is not whole, or it is out of range (`position_cases`).
Instructions put what comes out into a register or fail (`State.outcome`), so the laws hold of them
as well (`Instruction.read_over_write`).
-/

set_option autoImplicit false

namespace LineScript

/-! ## Positions -/

/-- What can come out of an array of the given length at an index, and when: anything at the
positions, and otherwise one of two faults. -/
structure IndexedBy {α : Type} (outcome : Except Fault α) (i : Decimal) (length : Nat) : Prop where
  succeeds_iff : (∃ v, outcome = .ok v) ↔ ∃ k : ℕ, i.value = k ∧ k < length
  fractional_iff : outcome = .error (.fractionalIndex i) ↔ ¬ ∃ k : ℤ, i.value = k
  outOfRange_iff :
      outcome = .error (.indexOutOfRange i length) ↔ ∃ k : ℤ, i.value = k ∧ (k < 0 ∨ length ≤ k)

theorem IndexedBy.map {α β : Type} {outcome : Except Fault α} {i : Decimal} {length : Nat}
    (f : α → β) (h : IndexedBy outcome i length) : IndexedBy (outcome.map f) i length := by
  obtain ⟨hsucceeds, hfractional, houtOfRange⟩ := h
  cases outcome with
  | error fault =>
    exact ⟨by simpa [Except.map] using hsucceeds, by simpa [Except.map] using hfractional,
      by simpa [Except.map] using houtOfRange⟩
  | ok v =>
    exact ⟨by simpa [Except.map] using hsucceeds, by simpa [Except.map] using hfractional,
      by simpa [Except.map] using houtOfRange⟩

namespace Value

variable {i j : Decimal} {length : Nat}

/-- An index is a place, or it is no whole number, or it lies outside. Arrays are no longer than
indexes can tell, so there is no fourth case. -/
theorem position_cases (hi : i.Canonical) (hlength : length ≤ 0x10000000000000000) :
    (∃ k : ℕ, i.value = k ∧ k < length ∧ position i length = .ok k) ∨
      ((¬ ∃ k : ℤ, i.value = k) ∧ position i length = .error (.fractionalIndex i)) ∨
      ∃ k : ℤ, i.value = k ∧ (k < 0 ∨ length ≤ k) ∧
        position i length = .error (.indexOutOfRange i length) := by
  by_cases hwhole : ∃ k : ℤ, i.value = k
  · obtain ⟨k, hk⟩ := hwhole
    by_cases hrange : 0 ≤ k ∧ k < length
    · obtain ⟨n, rfl⟩ := Int.eq_ofNat_of_zero_le hrange.1
      have hlt : n < length := by exact_mod_cast hrange.2
      have hvalue : i.value = n := by exact_mod_cast hk
      exact Or.inl
        ⟨n, hvalue, hlt, position_eq_ok_iff.2 ⟨hi.toIndex?_eq_some_iff.2 ⟨hvalue, by omega⟩, hlt⟩⟩
    · refine Or.inr (Or.inr ⟨k, hk, by omega, ?_⟩)
      rw [position, if_pos (hi.isInteger_iff.2 ⟨k, hk⟩)]
      split
      · rename_i n hn
        have hnk : (n : ℤ) = k := by
          have hvalue := (hi.toIndex?_eq_some_iff.1 hn).1
          rw [hk] at hvalue
          exact_mod_cast hvalue.symm
        exact if_neg (by omega)
      · rfl
  · refine Or.inr (Or.inl ⟨hwhole, ?_⟩)
    rw [position, if_neg (mt hi.isInteger_iff.1 hwhole)]

/-- The fault at an index says what is wrong with it. -/
theorem indexedBy_position (hi : i.Canonical) (hlength : length ≤ 0x10000000000000000) :
    IndexedBy (position i length) i length := by
  rcases position_cases hi hlength with ⟨k, hk, hlt, hp⟩ | ⟨hfraction, hp⟩ | ⟨k, hk, hrange, hp⟩
  · rw [hp]
    refine ⟨iff_of_true ⟨k, rfl⟩ ⟨k, hk, hlt⟩,
      iff_of_false nofun (not_not.2 ⟨k, by exact_mod_cast hk⟩), iff_of_false nofun ?_⟩
    rintro ⟨m, hm, hout⟩
    have hkm : (k : ℤ) = m := by exact_mod_cast hk.symm.trans hm
    omega
  · rw [hp]
    refine ⟨iff_of_false nofun ?_, iff_of_true rfl hfraction, iff_of_false nofun ?_⟩
    · rintro ⟨k, hk, _⟩
      exact hfraction ⟨k, by exact_mod_cast hk⟩
    · rintro ⟨k, hk, _⟩
      exact hfraction ⟨k, hk⟩
  · rw [hp]
    refine ⟨iff_of_false nofun ?_, iff_of_false nofun (not_not.2 ⟨k, hk⟩),
      iff_of_true rfl ⟨k, hk, hrange⟩⟩
    rintro ⟨m, hm, hlt⟩
    have hkm : k = m := by exact_mod_cast hk.symm.trans hm
    omega

/-! ## Arrays -/

variable {a m v new : Value}

/-- To read an item is to find its place, so whatever goes wrong is a matter of the index. -/
theorem getItem_array (element : Kind) (items : List Value) (i : Decimal) :
    (Value.array element items).getItem i =
      (position i items.length).map fun k => items.getD k default := by
  rw [getItem]
  cases hp : position i items.length with
  | error fault => rfl
  | ok k =>
    obtain ⟨_, hlt⟩ := position_eq_ok_iff.1 hp
    simp [hlt, Except.map, bind, Except.bind]

theorem setItem_array (element : Kind) (items : List Value) (i : Decimal) (v : Value) :
    (Value.array element items).setItem i v =
      (position i items.length).map fun k => .array (element.widen v.kind) (items.set k v) := by
  rw [setItem]
  cases position i items.length <;> rfl

/-- At the index of a store there is what was stored. -/
theorem getItem_setItem_self (h : a.setItem i v = .ok new) : new.getItem i = .ok v := by
  obtain ⟨element, items, k, rfl, hk, rfl⟩ := setItem_eq_ok_iff.1 h
  obtain ⟨_, hlt⟩ := position_eq_ok_iff.1 hk
  rw [getItem_array, List.length_set, hk]
  simp [hlt, Except.map]

/-- At any other index there is what was there before, or the same fault. -/
theorem getItem_setItem_of_ne (h : a.setItem i v = .ok new) (hne : j ≠ i) :
    new.getItem j = a.getItem j := by
  obtain ⟨element, items, k, rfl, hk, rfl⟩ := setItem_eq_ok_iff.1 h
  obtain ⟨hi, _⟩ := position_eq_ok_iff.1 hk
  rw [getItem_array, getItem_array, List.length_set]
  cases hp : position j items.length with
  | error fault => rfl
  | ok l =>
    obtain ⟨hj, _⟩ := position_eq_ok_iff.1 hp
    -- Indices with the same position are equal.
    have hkl : k ≠ l := by
      rintro rfl
      exact hne (Decimal.eq_of_toIndex? hj hi)
    simp [Except.map, List.getElem?_set_ne hkl]

theorem size_setItem (h : a.setItem i v = .ok new) : new.size = a.size := by
  obtain ⟨element, items, k, rfl, _, rfl⟩ := setItem_eq_ok_iff.1 h
  rw [size, size, List.length_set]

/-! ## Maps -/

variable {key : String}

theorem getEntry_setEntry (h : m.setEntry key v = .ok new) (other : String) :
    new.getEntry other = if other = key then .ok v else m.getEntry other := by
  obtain ⟨element, entries, rfl, rfl⟩ := setEntry_eq_ok_iff.1 h
  rw [getEntry, getEntry, Entries.get?_insert]
  by_cases hother : other = key
  · rw [if_pos hother, if_pos hother]
  · rw [if_neg hother, if_neg hother]

/-- A key is missing if no entry has it, and nothing else can go wrong with a map. -/
theorem getEntry_eq_missing_iff (element : Kind) {entries : List (String × Value)} :
    (Value.map element entries).getEntry key = .error (.missingKey key) ↔
      key ∉ entries.map Prod.fst := by
  rw [← Entries.get?_eq_none_iff, getEntry]
  cases Entries.get? key entries <;> simp

end Value

/-! ## Instructions -/

namespace Instruction

open Registers

variable {rs : Registers} {a x w d : Register} {c v k : Value} {i : Decimal}

/-! What element instructions write is what the operation on the values that they read gives. -/

/-- With its operands there, an instruction is the operation on their values; four more of this kind
follow. -/
theorem effect_len_eq (ha : rs.get? a = some c) :
    (len a d).effect rs = (c.size.map fun n => Value.number (.ofNat n)).map (Effect.write d) := by
  simp only [effect, read_eq_ok_iff.2 ha, bind, Except.bind, pure, Except.pure]
  cases c.size <;> rfl

theorem effect_getItem_eq (ha : rs.get? a = some c) (hx : rs.get? x = some (.number i)) :
    (getItem a x d).effect rs = (c.getItem i).map (Effect.write d) := by
  simp only [effect, read_eq_ok_iff.2 ha, read_eq_ok_iff.2 hx, Value.asNumber, bind, Except.bind,
    pure, Except.pure]
  cases c.getItem i <;> rfl

theorem effect_setItem_eq (ha : rs.get? a = some c) (hx : rs.get? x = some (.number i))
    (hw : rs.get? w = some v) :
    (setItem a x w).effect rs = (c.setItem i v).map (Effect.write a) := by
  simp only [effect, read_eq_ok_iff.2 ha, read_eq_ok_iff.2 hx, read_eq_ok_iff.2 hw, Value.asNumber,
    bind, Except.bind, pure, Except.pure]
  cases c.setItem i v <;> rfl

theorem effect_getEntry_eq (ha : rs.get? a = some c) (hx : rs.get? x = some k) :
    (getEntry a x d).effect rs = (c.getEntry k.key).map (Effect.write d) := by
  simp only [effect, read_eq_ok_iff.2 ha, read_eq_ok_iff.2 hx, bind, Except.bind, pure, Except.pure]
  cases c.getEntry k.key <;> rfl

theorem effect_setEntry_eq (ha : rs.get? a = some c) (hx : rs.get? x = some k)
    (hw : rs.get? w = some v) :
    (setEntry a x w).effect rs = (c.setEntry k.key v).map (Effect.write a) := by
  simp only [effect, read_eq_ok_iff.2 ha, read_eq_ok_iff.2 hx, read_eq_ok_iff.2 hw, bind,
    Except.bind, pure, Except.pure]
  cases c.setEntry k.key v <;> rfl

end Instruction

namespace State

variable {s t : State} {i : Instruction} {result : Except Fault Value}
    {a x y z w d : Register} {v : Value}

/-- What an instruction comes to: the contents of the register that it writes, or a fault. -/
def outcome (s : State) (i : Instruction) : Except Fault (Option Value) :=
  match s.execute i with
  | (t, none) => .ok (i.dest?.bind t.registers.get?)
  | (_, some fault) => .error fault

theorem outcome_of_effect (hdest : i.dest? = some d)
    (h : i.effect s.registers = result.map (Effect.write d)) : s.outcome i = result.map some := by
  rw [outcome, execute, h]
  cases result with
  | error fault => rfl
  | ok v => simp [Except.map, perform, hdest, Registers.get?_set]

/-- An instruction that succeeded has put what its operation gave into its destination. -/
theorem get?_of_execute (h : i.effect s.registers = result.map (Effect.write d))
    (hs : s.execute i = (t, none)) : ∃ v, result = .ok v ∧ t.registers.get? d = some v := by
  obtain ⟨effect, he, hp⟩ := execute_eq_none_iff.1 hs
  rw [h] at he
  cases result with
  | error fault => cases he
  | ok v =>
    obtain rfl := Except.ok.inj he
    obtain rfl := congrArg Prod.fst hp
    exact ⟨v, rfl, (Registers.get?_set _ _ _ _).trans (if_pos rfl)⟩

/-- A store at an index of an array, and what can be read before and after it. -/
structure StoresItem (s : State) (a x w : Register) (items : List Value) (i : Decimal)
    (v : Value) : Prop where
  /-- Reading and storing succeed for the same indices. -/
  read : ∀ d, IndexedBy (s.outcome (.getItem a x d)) i items.length
  store : IndexedBy (s.outcome (.setItem a x w)) i items.length
  /-- Behind a store there is what was stored at an index of the same value, and what there was
  before at any other. -/
  reread :
      ∀ t, s.execute (.setItem a x w) = (t, none) →
        ∀ y z d j, j.Canonical →
        t.registers.get? y = some (.number j) → s.registers.get? z = some (.number j) →
        t.outcome (.getItem a y d) = if j.value = i.value then .ok (some v)
          else s.outcome (.getItem a z d)
  len : ∀ d, s.outcome (.len a d) = .ok (some (.number (.ofNat items.length)))
  relen :
      ∀ t, s.execute (.setItem a x w) = (t, none) → ∀ d, t.outcome (.len a d) = s.outcome (.len a d)

theorem storesItem {element : Kind} {items : List Value} {i : Decimal}
    (ha : s.registers.get? a = some (.array element items))
    (hlength : items.length ≤ 0x10000000000000000) (hx : s.registers.get? x = some (.number i))
    (hi : i.Canonical) (hw : s.registers.get? w = some v) : s.StoresItem a x w items i v := by
  have hposition := Value.indexedBy_position hi hlength
  have hstore := Instruction.effect_setItem_eq ha hx hw
  refine ⟨fun d => ?_, ?_, fun t ht y z d j hj hy hz => ?_, fun d => ?_, fun t ht d => ?_⟩
  · rw [outcome_of_effect rfl (Instruction.effect_getItem_eq ha hx), Value.getItem_array]
    exact (hposition.map _).map some
  · rw [outcome_of_effect rfl hstore, Value.setItem_array]
    exact (hposition.map _).map some
  · obtain ⟨new, hnew, hta⟩ := get?_of_execute hstore ht
    rw [outcome_of_effect rfl (Instruction.effect_getItem_eq hta hy),
      outcome_of_effect rfl (Instruction.effect_getItem_eq ha hz)]
    split
    · rename_i hvalue
      obtain rfl := Decimal.eq_of_value_eq hj.last_ne hi.last_ne hvalue
      rw [Value.getItem_setItem_self hnew]
      rfl
    · rename_i hvalue
      rw [Value.getItem_setItem_of_ne hnew fun heq => hvalue (congrArg Decimal.value heq)]
  · rw [outcome_of_effect rfl (Instruction.effect_len_eq ha)]
    rfl
  · obtain ⟨new, hnew, hta⟩ := get?_of_execute hstore ht
    rw [outcome_of_effect rfl (Instruction.effect_len_eq hta),
      outcome_of_effect rfl (Instruction.effect_len_eq ha), Value.size_setItem hnew]

/-- The entries are in the strict order of the bytes of their keys, and so no key has two of
them. -/
def InByteOrder (entries : List (String × Value)) : Prop :=
  entries.Pairwise (fun a b => Utf8.encode a.1 < Utf8.encode b.1) ∧ (entries.map Prod.fst).Nodup

theorem inByteOrder_of_sorted {entries : List (String × Value)} (h : Entries.Sorted entries) :
    InByteOrder entries :=
  ⟨Entries.sorted_iff_bytes.1 h, h.nodup⟩

/-- A store under a key of a map, which always succeeds, and what can be read before and after
it. -/
structure StoresEntry (s t : State) (a x : Register) (entries : List (String × Value))
    (k v : Value) : Prop where
  missing_iff :
      ∀ d, s.outcome (.getEntry a x d) = .error (.missingKey k.key) ↔ k.key ∉ entries.map Prod.fst
  /-- There is what was stored under a key of the same text, and what there was before under any
  other. -/
  reread :
      ∀ y z d l, t.registers.get? y = some l → s.registers.get? z = some l →
        t.outcome (.getEntry a y d) = if l.key = k.key then .ok (some v)
          else s.outcome (.getEntry a z d)
  len : ∀ d, s.outcome (.len a d) = .ok (some (.number (.ofNat entries.length)))
  /-- There is one entry more if there was none for the key. -/
  relen : ∀ d, t.outcome (.len a d) = .ok (some (.number (.ofNat
    (if k.key ∈ entries.map Prod.fst then entries.length else entries.length + 1))))
  order : ∃ element new, t.registers.get? a = some (.map element new) ∧ InByteOrder new

theorem storesEntry {element : Kind} {entries : List (String × Value)} {k : Value}
    (ha : s.registers.get? a = some (.map element entries)) (hsorted : Entries.Sorted entries)
    (hx : s.registers.get? x = some k) (hw : s.registers.get? w = some v) :
    ∃ t, s.execute (.setEntry a x w) = (t, none) ∧ s.StoresEntry t a x entries k v := by
  have hstore := Instruction.effect_setEntry_eq ha hx hw
  have hnew : (Value.map element entries).setEntry k.key v =
    .ok (.map (element.widen v.kind) (Entries.insert k.key v entries)) := rfl
  obtain ⟨t, ht⟩ : ∃ t, s.execute (.setEntry a x w) = (t, none) := by
    rw [hnew] at hstore
    exact ⟨_, execute_eq_none_iff.2 ⟨_, hstore, rfl⟩⟩
  obtain ⟨_, rfl, hta⟩ : ∃ new,
      new = Value.map (element.widen v.kind) (Entries.insert k.key v entries) ∧
        t.registers.get? a = some new := by
    obtain ⟨new, heq, hta⟩ := get?_of_execute hstore ht
    exact ⟨new, Except.ok.inj (heq.symm.trans hnew), hta⟩
  refine ⟨t, ht, fun d => ?_, fun y z d l hy hz => ?_, fun d => ?_, fun d => ?_, _, _, hta, ?_⟩
  · rw [outcome_of_effect rfl (Instruction.effect_getEntry_eq ha hx),
      ← Value.getEntry_eq_missing_iff element]
    cases (Value.map element entries).getEntry k.key <;> simp [Except.map]
  · rw [outcome_of_effect rfl (Instruction.effect_getEntry_eq hta hy),
      outcome_of_effect rfl (Instruction.effect_getEntry_eq ha hz), Value.getEntry_setEntry hnew]
    split <;> rfl
  · rw [outcome_of_effect rfl (Instruction.effect_len_eq ha)]
    rfl
  · rw [outcome_of_effect rfl (Instruction.effect_len_eq hta), Value.size, hsorted.length_insert]
    rfl
  · exact inByteOrder_of_sorted (hsorted.insert k.key v)

/-- **Containers obey read over write.** An index has an item of an array exactly if its value is a
whole number from zero and below the length, and the fault says what else it is; no array has more
items than a word of 64 bits counts. A store into an array changes what is read at indices of the
same value and nothing else, and not the length. A store into a map changes what is read under keys
of the same text and nothing else, not even a fault, and adds an entry exactly if there was none for
the key; the entries stay in the order of the bytes of their keys, each key once. All maps in a run
of a source are in this order. -/
theorem containers_read_over_write :
    (∀ (s : State) (a x w : Register) (element : Kind) (items : List Value) (i : Decimal)
      (v : Value),
      s.registers.get? a = some (.array element items) → items.length ≤ 0x10000000000000000 →
      s.registers.get? x = some (.number i) → i.Canonical → s.registers.get? w = some v →
      s.StoresItem a x w items i v) ∧
      (∀ (s : State) (a x w : Register) (element : Kind) (entries : List (String × Value))
        (k v : Value), s.registers.get? a = some (.map element entries) →
        InByteOrder entries → s.registers.get? x = some k → s.registers.get? w = some v →
        ∃ t, s.execute (.setEntry a x w) = (t, none) ∧ s.StoresEntry t a x entries k v) ∧
      ∀ (source : String) (routine : Routine), Source.compile source = .ok routine →
        ∀ sink t, Reaches routine.code (routine.start sink) t → ∀ r element entries,
        t.registers.get? r = some (.map element entries) → InByteOrder entries := by
  refine ⟨fun s a x w element items i v ha hlength hx hi hw => storesItem ha hlength hx hi hw,
    fun s a x w element entries k v ha horder hx hw => ?_,
    fun source routine hcompile sink t ht r element entries hr => ?_⟩
  · exact storesEntry ha (Entries.sorted_iff_bytes.2 horder.1) hx hw
  · exact inByteOrder_of_sorted
      (Value.inOrder_map_iff.1 (Source.maps_in_order hcompile ht r _ hr)).1

/-- An array, a map with an entry under the text `1`, and values to store and to look up with. -/
def twoContainers : State :=
  ⟨⟨[some (.array .number [.number ⟨1, 0⟩, .number ⟨2, 0⟩]),
    some (.map .string [("1", .string "a")]), some (.number ⟨1, 0⟩), some (.char '1'),
    some (.string "s"), some (.number ⟨15, 1⟩)]⟩, 0, Sink.new none⟩

/-- The code of a map of two entries, the one with the larger key in front. -/
def largerKeyFirst : Routine :=
  ⟨[.load (.char 'b') 0, .load (.number ⟨1, 0⟩) 1, .load (.char 'a') 2, .load (.number ⟨2, 0⟩) 3,
    .makeMap .number 4, .setEntry 4 0 1, .setEntry 4 2 3], 5⟩

set_option maxRecDepth 8192 in
/-- The index 1.5 is not whole, and the number 1 and the char `1` are the same key. In a run, the
entries of a map that is written the other way round are in order. -/
theorem containers_read_over_write_twoContainers :
    twoContainers.outcome (.getItem 0 5 6) = .error (.fractionalIndex ⟨15, 1⟩) ∧
      (∃ t, twoContainers.execute (.setItem 0 2 4) = (t, none) ∧
        t.outcome (.getItem 0 2 6) = .ok (some (.string "s"))) ∧
      (∃ t, twoContainers.execute (.setEntry 1 3 4) = (t, none) ∧
        t.outcome (.getEntry 1 2 6) = .ok (some (.string "s")) ∧
        t.outcome (.len 1 6) = .ok (some (.number ⟨1, 0⟩))) ∧
      Source.compile "\x7b'b': 1, 'a': 2\x7d" = .ok largerKeyFirst ∧
      ∃ t entries, Reaches largerKeyFirst.code (largerKeyFirst.start (Sink.new none)) t ∧
        t.registers.get? 4 = some (.map .number entries) ∧ entries.map Prod.fst = ["a", "b"] ∧
        InByteOrder entries := by
  have hwhole : Decimal.Canonical ⟨1, 0⟩ :=
    ⟨by decide, by decide, fun hpos => absurd hpos (by decide)⟩
  have hfraction : Decimal.Canonical ⟨15, 1⟩ := ⟨by decide, by decide, fun _ => by decide⟩
  refine ⟨?_, ⟨_, rfl, ?_⟩, ?_, ?_⟩
  · have hread := (containers_read_over_write.1 twoContainers 0 5 4 _ _ _ _ rfl (by decide) rfl
      hfraction rfl).read 6
    refine hread.fractional_iff.2 ?_
    rintro ⟨k, hk⟩
    have hten : (15 : ℤ) = k * 10 := by
      rw [Decimal.value, div_eq_iff (by norm_num)] at hk
      exact_mod_cast hk
    omega
  · have hstores :=
      containers_read_over_write.1 twoContainers 0 2 4 _ _ _ _ rfl (by decide) rfl hwhole rfl
    exact (hstores.reread _ rfl 2 2 6 ⟨1, 0⟩ hwhole rfl rfl).trans (if_pos rfl)
  · obtain ⟨t, ht, hstores⟩ := containers_read_over_write.2.1 twoContainers 1 3 4 _ _ _ _ rfl
      ⟨List.pairwise_singleton _ _, List.nodup_singleton _⟩ rfl rfl
    have hsame : t.registers.get? 2 = twoContainers.registers.get? 2 := by
      obtain rfl := congrArg Prod.fst ht
      rfl
    refine ⟨t, ht, ?_, ?_⟩
    · exact (hstores.reread 2 2 6 (.number ⟨1, 0⟩) hsame rfl).trans (if_pos rfl)
    · exact (hstores.relen 6).trans rfl
  · have hscan : Token.scan "\x7b'b': 1, 'a': 2\x7d" = .ok [⟨.braceOpen, "\x7b", false, ⟨0, 1⟩⟩,
        ⟨.charLiteral, "b", false, ⟨1, 4⟩⟩, ⟨.colon, ":", false, ⟨4, 5⟩⟩,
        ⟨.numberLiteral, "1", false, ⟨6, 7⟩⟩, ⟨.comma, ",", false, ⟨7, 8⟩⟩,
        ⟨.charLiteral, "a", false, ⟨9, 12⟩⟩, ⟨.colon, ":", false, ⟨12, 13⟩⟩,
        ⟨.numberLiteral, "2", false, ⟨14, 15⟩⟩, ⟨.braceClose, "\x7d", false, ⟨15, 16⟩⟩,
        ⟨.endOfFile, "", true, ⟨16, 16⟩⟩] := by
      with_unfolding_all rfl
    have hparse : Source.parse "\x7b'b': 1, 'a': 2\x7d" =
        .ok [⟨.map [ (.literal (.char 'b'), .literal (.number ⟨1, 0⟩)),
          (.literal (.char 'a'), .literal (.number ⟨2, 0⟩))], ⟨0, 16⟩⟩] := by
      rw [Source.parse, hscan]
      with_unfolding_all rfl
    have hcompile : Source.compile "\x7b'b': 1, 'a': 2\x7d" = .ok largerKeyFirst := by
      rw [Source.compile, hparse]
      cbv
    let t : State :=
      ⟨⟨[some (.char 'b'), some (.number ⟨1, 0⟩), some (.char 'a'), some (.number ⟨2, 0⟩),
        some (.map .number [("a", .number ⟨2, 0⟩), ("b", .number ⟨1, 0⟩)])]⟩, 7, Sink.new none⟩
    have hrun : runFor largerKeyFirst.code 7 (largerKeyFirst.start (Sink.new none)) =
        (t, .finished) := rfl
    have hreaches := (runFor_spec hrun).1
    refine ⟨hcompile, t, _, hreaches, rfl, rfl, ?_⟩
    exact containers_read_over_write.2.2 _ _ hcompile _ _ hreaches 4 _ _ rfl

end State

end LineScript
