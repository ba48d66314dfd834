import LineScript.Proofs.Grammar.Places
import LineScript.Proofs.Machine.Steps
import LineScript.Proofs.Value.Equality

/-!
# Equal values are interchangeable

What instructions do with values they do with equal values as well (`Instruction.effect_agree`):
what they write is equal, what they print is the same, and they fail for the same values. Only a
type mismatch looks different, as it names the kind that it found, and this kind says what the
elements are.

The operations on values come first, each with the lemma that it agrees on equal ones. An
instruction is a chain of them, so that it agrees follows link by link (`Agree.bind`). Steps keep
register files equal, and so do whole runs of the same code, which print the same and end alike
(`State.runFor_same`).
-/

set_option autoImplicit false

namespace LineScript

/-! ## Outcomes -/

section Outcomes

variable {ε α β γ δ : Type} {E : ε → ε → Prop} {V : α → β → Prop} {W : γ → δ → Prop}

/-- Computations agree if their parts do. All that follows is chained with this. -/
theorem Agree.bind {x : Except ε α} {y : Except ε β} {f : α → Except ε γ} {g : β → Except ε δ}
    (h : Agree E V x y) (hf : ∀ {a b}, V a b → Agree E W (f a) (g b)) :
    Agree E W (x >>= f) (y >>= g) := by
  cases h with
  | ok hvalue => exact hf hvalue
  | error he => exact .error he

theorem Agree.map {x : Except ε α} {y : Except ε β} {f : α → γ} {g : β → δ} (h : Agree E V x y)
    (hf : ∀ {a b}, V a b → W (f a) (g b)) : Agree E W (x.map f) (y.map g) := by
  cases h with
  | ok hvalue => exact .ok (hf hvalue)
  | error he => exact .error he

theorem Agree.refl {V : α → α → Prop} (hE : ∀ e, E e e) (hV : ∀ a, V a a)
    (x : Except ε α) : Agree E V x x := by
  cases x with
  | ok a => exact .ok (hV a)
  | error e => exact .error (hE e)

end Outcomes

/-- The same fault, but for the kinds of equal values that a mismatch names. -/
inductive Fault.Same : Fault → Fault → Prop
  | refl (fault : Fault) : Same fault fault
  | found (expected : Shape) {a b : Value} (h : a.same b = true) :
      Same (.mismatch expected a.kind) (.mismatch expected b.kind)

/-- The same effect, but for equal values that are written. -/
inductive Effect.Same : Effect → Effect → Prop
  | refl (effect : Effect) : Same effect effect
  | write (r : Register) {a b : Value} (h : a.same b = true) : Same (.write r a) (.write r b)

/-! ## Operations on values -/

namespace Value

variable {a b c d v w : Value} {α : Type}

/-- An operation that wants a scalar finds the same scalar in equal values, or fails for both. -/
theorem agree_of_scalar {f : Value → Except Fault α} (expected : Shape)
    (hf : ∀ v, v.isScalar = false → f v = .error (.mismatch expected v.kind))
    (h : a.same b = true) : Agree Fault.Same Eq (f a) (f b) := by
  rcases same_cases h with ⟨_, rfl⟩ | ⟨_, _, _, _, rfl, rfl, _⟩ | ⟨_, _, _, _, rfl, rfl, _⟩
  · exact .refl .refl (fun _ => rfl) _
  · rw [hf _ rfl, hf _ rfl]
    exact .error (.found expected h)
  · rw [hf _ rfl, hf _ rfl]
    exact .error (.found expected h)

/-- Lookups that find equal values, or nothing, agree when finding nothing is a fault. -/
theorem agree_of_rel {x y : Option Value} (fault : Fault) :
    Option.Rel (fun v w => v.same w = true) x y →
      Agree Fault.Same (fun v w => v.same w = true) (match x with
        | some v => .ok v
        | none => .error fault)
      (match y with
        | some v => .ok v
        | none => .error fault)
  | .none => .error (.refl fault)
  | .some hab => .ok hab

theorem asNumber_agree (h : a.same b = true) : Agree Fault.Same Eq a.asNumber b.asNumber := by
  refine agree_of_scalar .number (fun v hv => ?_) h
  cases v <;> first | rfl | cases hv

theorem asString_agree (h : a.same b = true) : Agree Fault.Same Eq a.asString b.asString := by
  refine agree_of_scalar .string (fun v hv => ?_) h
  cases v <;> first | rfl | cases hv

theorem asData_agree (h : a.same b = true) : Agree Fault.Same Eq a.asData b.asData := by
  refine agree_of_scalar .data (fun v hv => ?_) h
  cases v <;> first | rfl | cases hv

theorem size_agree (h : a.same b = true) : Agree Fault.Same Eq a.size b.size := by
  rcases same_cases h with
    ⟨_, rfl⟩ | ⟨_, _, xs, ys, rfl, rfl, hitems⟩ | ⟨_, _, xs, ys, rfl, rfl, hentries⟩
  · exact .refl .refl (fun _ => rfl) _
  · exact .ok (by simpa using congrArg List.length hitems)
  · exact .ok (by simpa using congrArg List.length hentries)

/-- Items of equal arrays are equal; a fault of the index is the same, and one of the container
names its own kind. -/
theorem getItem_agree (h : a.same b = true) (index : Decimal) :
    Agree Fault.Same (fun v w => v.same w = true) (a.getItem index) (b.getItem index) := by
  rcases same_cases h with ⟨_, rfl⟩ | ⟨_, _, xs, ys, rfl, rfl, hitems⟩ | ⟨_, _, _, _, rfl, rfl, _⟩
  · exact .refl .refl same_refl _
  · have hlength : xs.length = ys.length := by simpa using congrArg List.length hitems
    simp only [getItem, hlength]
    refine (Agree.refl (V := Eq) .refl (fun _ => rfl) _).bind fun {i j} hij => ?_
    subst hij
    -- Equal items stand at the same index.
    have hitem : Option.Rel (fun v w => v.same w = true) xs[i]? ys[i]? :=
      rel_same_iff.2 (by rw [← List.getElem?_map, ← List.getElem?_map, hitems])
    exact agree_of_rel _ hitem
  · exact .error (.found .array h)

theorem setItem_agree (h : a.same b = true) (hv : v.same w = true) (index : Decimal) :
    Agree Fault.Same (fun c d => c.same d = true) (a.setItem index v) (b.setItem index w) := by
  rcases same_cases h with
    ⟨hscalar, rfl⟩ | ⟨_, _, xs, ys, rfl, rfl, hitems⟩ | ⟨_, _, _, _, rfl, rfl, _⟩
  · cases b with
    | array | map => cases hscalar
    | _ => exact .error (.refl _)
  · have hlength : xs.length = ys.length := by simpa using congrArg List.length hitems
    simp only [setItem, hlength]
    refine (Agree.refl (V := Eq) .refl (fun _ => rfl) _).bind
      fun {i j} hij => .ok (same_iff_bare.2 ?_)
    rw [hij, bare_array, bare_array, List.map_set, List.map_set, hitems, same_iff_bare.1 hv]
  · exact .error (.found .array h)

theorem getEntry_agree (h : a.same b = true) (key : String) :
    Agree Fault.Same (fun v w => v.same w = true) (a.getEntry key) (b.getEntry key) := by
  rcases same_cases h with ⟨_, rfl⟩ | ⟨_, _, _, _, rfl, rfl, _⟩ | ⟨_, _, xs, ys, rfl, rfl, hentries⟩
  · exact .refl .refl same_refl _
  · exact .error (.found .map h)
  · -- Equal entries stand under the same key.
    have hentry : Option.Rel (fun v w => v.same w = true) (Entries.get? key xs)
        (Entries.get? key ys) :=
      rel_same_iff.2 (by rw [← get?_entries_bare, ← get?_entries_bare, hentries])
    exact agree_of_rel _ hentry

theorem setEntry_agree (h : a.same b = true) (hv : v.same w = true) (key : String) :
    Agree Fault.Same (fun c d => c.same d = true) (a.setEntry key v) (b.setEntry key w) := by
  rcases same_cases h with
    ⟨hscalar, rfl⟩ | ⟨_, _, _, _, rfl, rfl, _⟩ | ⟨_, _, xs, ys, rfl, rfl, hentries⟩
  · cases b with
    | array | map => cases hscalar
    | _ => exact .error (.refl _)
  · exact .error (.found .map h)
  · refine .ok (same_iff_bare.2 ?_)
    rw [bare_map, bare_map, insert_entries_bare, insert_entries_bare, hentries, same_iff_bare.1 hv]

/-- Equal values are ordered alike: the first one decides what the second one has to be. -/
theorem order_agree (ha : a.same b = true) (hc : c.same d = true) :
    Agree Fault.Same Eq (a.order c) (b.order d) := by
  rcases same_cases ha with ⟨hscalar, rfl⟩ | ⟨_, _, _, _, rfl, rfl, _⟩ | ⟨_, _, _, _, rfl, rfl, _⟩
  · cases b with
    | array | map => cases hscalar
    | bool | data => exact .error (.refl _)
    | number n =>
      refine agree_of_scalar (f := (Value.number n).order) .number (fun v hv => ?_) hc
      cases v <;> first | rfl | cases hv
    | string s =>
      refine agree_of_scalar (f := (Value.string s).order) .string (fun v hv => ?_) hc
      cases v <;> first | rfl | cases hv
    | char x =>
      refine agree_of_scalar (f := (Value.char x).order) .char (fun v hv => ?_) hc
      cases v <;> first | rfl | cases hv
  · exact .error (.found .ordered ha)
  · exact .error (.found .ordered ha)

theorem same_congr (ha : a.same b = true) (hc : c.same d = true) : a.same c = b.same d := by
  rw [← same_bare a, same_iff_bare.1 ha, same_iff_bare.1 hc, same_bare]

theorem relation_agree (op : Relation) (ha : a.same b = true) (hc : c.same d = true) :
    Agree Fault.Same Eq (op.apply a c) (op.apply b d) := by
  have horder : ∀ test : Ordering → Bool,
      Agree Fault.Same Eq ((a.order c).map test) ((b.order d).map test) :=
    fun test => (order_agree ha hc).map fun heq => congrArg test heq
  cases op with
  | equal => exact .ok (same_congr ha hc)
  | notEqual => exact .ok (congrArg Bool.not (same_congr ha hc))
  | greater => exact horder _
  | greaterEqual => exact horder _
  | less => exact horder _
  | lessEqual => exact horder _

end Value

/-! ## Registers -/

namespace Registers

variable {rs qs : Registers}

/-- The same registers are empty, and the others hold equal values. -/
def Same (rs qs : Registers) : Prop :=
  ∀ r, Option.Rel (fun a b => a.same b = true) (rs.get? r) (qs.get? r)

theorem Same.read (h : rs.Same qs) (r : Register) :
    Agree Fault.Same (fun a b => a.same b = true) (rs.read r) (qs.read r) :=
  Value.agree_of_rel _ (h r)

theorem Same.readAll (h : rs.Same qs) (registers : List Register) :
    Agree Fault.Same (List.Forall₂ fun a b => a.same b = true) (rs.readAll registers)
      (qs.readAll registers) := by
  induction registers with
  | nil => exact .ok .nil
  | cons r rest ih => exact (h.read r).bind fun hab => ih.bind fun hrest => .ok (.cons hab hrest)

theorem Same.set (h : rs.Same qs) {a b : Value} (hab : a.same b = true) (r : Register) :
    (rs.set r a).Same (qs.set r b) := by
  intro q
  rw [get?_set, get?_set]
  split
  · exact .some hab
  · exact h q

end Registers

theorem Value.bare_eq_of_forall₂ {xs ys : List Value}
    (h : List.Forall₂ (fun a b => a.same b = true) xs ys) : xs.map bare = ys.map bare := by
  induction h with
  | nil => rfl
  | cons hab _ ih => rw [List.map_cons, List.map_cons, ih, same_iff_bare.1 hab]

/-! ## Instructions -/

/-- Numeric results are the same or fail alike. -/
theorem Fault.ofNumeric_agree {result other : Except DecimalError Decimal} (h : result = other) :
    Agree Fault.Same (fun a b => a.same b = true) (ofNumeric result) (ofNumeric other) :=
  h ▸ .refl .refl Value.same_refl _

/-- **Instructions do not tell equal values apart.** -/
theorem Instruction.effect_agree {rs qs : Registers} (h : rs.Same qs) (i : Instruction) :
    Agree Fault.Same Effect.Same (i.effect rs) (i.effect qs) := by
  -- Each instruction is a chain of readings and operations, and all of them agree.
  cases i with
  | load v d => exact .ok (.refl _)
  | copy l d => exact (h.read l).bind fun hab => .ok (.write d hab)
  | arith op l r d =>
    simp only [effect]
    refine (h.read l).bind fun ha => (Value.asNumber_agree ha).bind fun hm => ?_
    refine (h.read r).bind fun hb => (Value.asNumber_agree hb).bind fun hn => ?_
    exact (Fault.ofNumeric_agree (by rw [hm, hn])).bind fun hv => .ok (.write d hv)
  | combine l r d =>
    simp only [effect]
    refine (h.read l).bind fun ha => (Value.asData_agree ha).bind fun hm => ?_
    refine (h.read r).bind fun hb => (Value.asData_agree hb).bind fun hn => ?_
    rw [hm, hn]
    exact .ok (.refl _)
  | concat l r d =>
    simp only [effect]
    refine (h.read l).bind fun ha => (Value.asString_agree ha).bind fun hm => ?_
    refine (h.read r).bind fun hb => (Value.asString_agree hb).bind fun hn => ?_
    rw [hm, hn]
    exact .ok (.refl _)
  | relate op l r d =>
    refine (h.read l).bind
      fun ha => (h.read r).bind fun hb => (Value.relation_agree op ha hb).bind fun hholds => ?_
    rw [hholds]
    exact .ok (.refl _)
  | negate l d =>
    simp only [effect]
    refine (h.read l).bind fun ha => (Value.asNumber_agree ha).bind fun hn => ?_
    exact (Fault.ofNumeric_agree (by rw [hn])).bind fun hv => .ok (.write d hv)
  | not l d =>
    refine (h.read l).bind fun ha => ?_
    rw [Value.isTrue_eq_of_same ha]
    exact .ok (.refl _)
  | len l d =>
    simp only [effect]
    refine (h.read l).bind fun ha => (Value.size_agree ha).bind fun hsize => ?_
    rw [hsize]
    exact .ok (.refl _)
  | makeArray kind elements d =>
    refine (h.readAll elements).bind fun hitems => .ok (.write d (Value.same_iff_bare.2 ?_))
    rw [Value.bare_array, Value.bare_array, Value.bare_eq_of_forall₂ hitems]
  | getItem a x d =>
    simp only [effect]
    refine (h.read x).bind
      fun hx => (Value.asNumber_agree hx).bind fun hi => (h.read a).bind fun ha => ?_
    rw [hi]
    exact (Value.getItem_agree ha _).bind fun hv => .ok (.write d hv)
  | setItem a x w =>
    simp only [effect]
    refine (h.read x).bind fun hx => (Value.asNumber_agree hx).bind fun hi => ?_
    refine (h.read w).bind fun hw => (h.read a).bind fun ha => ?_
    rw [hi]
    exact (Value.setItem_agree ha hw _).bind fun hnew => .ok (.write a hnew)
  | makeMap kind d => exact .ok (.refl _)
  | getEntry m k d =>
    refine (h.read k).bind fun hk => (h.read m).bind fun hm => ?_
    rw [Value.key_eq_of_same hk]
    exact (Value.getEntry_agree hm _).bind fun hv => .ok (.write d hv)
  | setEntry m k w =>
    refine (h.read k).bind fun hk => (h.read w).bind fun hw => (h.read m).bind fun hm => ?_
    rw [Value.key_eq_of_same hk]
    exact (Value.setEntry_agree hm hw _).bind fun hnew => .ok (.write m hnew)
  | print arguments =>
    refine (h.readAll arguments).bind fun hvalues => ?_
    rw [← printedLine_bare, Value.bare_eq_of_forall₂ hvalues, printedLine_bare]
    exact .ok (.refl _)
  | jump target => exact .ok (.refl _)
  | jumpIf c target =>
    refine (h.read c).bind fun hc => ?_
    rw [Value.isTrue_eq_of_same hc]
    exact .ok (.refl _)
  | jumpUnless c target =>
    refine (h.read c).bind fun hc => ?_
    rw [Value.isTrue_eq_of_same hc]
    exact .ok (.refl _)

/-! ## Runs -/

namespace State

variable {s t : State} {code : List Instruction}

/-- The same index, the same sink, and equal values in the registers. -/
structure Same (s t : State) : Prop where
  next : s.next = t.next
  sink : s.sink = t.sink
  registers : s.registers.Same t.registers

/-- The same ending, but for the kinds of equal values that a mismatch names. -/
inductive Ending.Same : Ending → Ending → Prop
  | refl (ending : Ending) : Same ending ending
  | failed (index : Nat) (opcode : String) {f g : Fault} (h : f.Same g) :
      Same (.failed index opcode f) (.failed index opcode g)

theorem Same.advance (h : s.Same t) : s.advance.Same t.advance where
  next := congrArg (· + 1) h.next
  sink := h.sink
  registers := h.registers

theorem Same.perform {e f : Effect} (h : s.Same t) (he : e.Same f) :
    (s.perform e).1.Same (t.perform f).1 ∧ (s.perform e).2 = (t.perform f).2 := by
  cases he with
  | write r hab => exact ⟨⟨h.next, h.sink, h.registers.set hab r⟩, rfl⟩
  | refl =>
    cases e with
    | write r v => exact ⟨⟨h.next, h.sink, h.registers.set (Value.same_refl v) r⟩, rfl⟩
    | jump target => exact ⟨⟨rfl, h.sink, h.registers⟩, rfl⟩
    | proceed => exact ⟨h, rfl⟩
    | print line =>
      refine ⟨⟨h.next, ?_, h.registers⟩, ?_⟩
      · simp only [State.perform, h.sink]
      · simp only [State.perform, h.sink]

/-- An instruction keeps states equal, and fails in both or in neither. -/
theorem Same.execute (h : s.Same t) (i : Instruction) :
    (s.execute i).1.Same (t.execute i).1 ∧
      Option.Rel Fault.Same (s.execute i).2 (t.execute i).2 := by
  unfold State.execute
  rcases (Instruction.effect_agree h.registers i).ok_or_error with
    ⟨e, f, he, hf, hsame⟩ | ⟨f, g, hf, hg, hsame⟩
  · rw [he, hf]
    obtain ⟨hstate, hfault⟩ := h.perform hsame
    refine ⟨hstate, ?_⟩
    dsimp only
    rw [hfault]
    cases (t.perform f).2 with
    | none => exact .none
    | some fault => exact .some (.refl fault)
  · rw [hf, hg]
    exact ⟨h, .some hsame⟩

/-- **Runs from equal states go alike**, for as many steps as they are given. -/
theorem runFor_same (h : s.Same t) (steps : Nat) :
    (runFor code steps s).1.Same (runFor code steps t).1 ∧
      (runFor code steps s).2.Same (runFor code steps t).2 := by
  induction steps generalizing s t with
  | zero =>
    rw [runFor, runFor, h.next]
    cases code[t.next]? with
    | none => exact ⟨h, .refl _⟩
    | some i => exact ⟨h, .refl _⟩
  | succ steps ih =>
    rw [runFor, runFor, h.next]
    cases code[t.next]? with
    | none => exact ⟨h, .refl _⟩
    | some i =>
      obtain ⟨hstate, hfault⟩ := h.advance.execute i
      rcases hs : s.advance.execute i with ⟨u, f⟩
      rcases ht : t.advance.execute i with ⟨v, g⟩
      rw [hs, ht] at hstate hfault
      simp only [hs, ht]
      cases hfault with
      | none => exact ih hstate
      | some hsame => exact ⟨hstate, .failed _ _ hsame⟩

end State

/-! ## Equality -/

/-- **Equality ignores element kinds and nothing else.** The equality test of two values says
whether they are the same with `any` as every element kind; for maps in order that is to have equal
values under all keys. It is an equivalence, equal values have the same text and the same key, and
no instruction and no run of instructions tells them apart: what it writes is equal, what it prints
is the same, and it fails for the same values and with the same fault, but that a type mismatch
names the kind of the value that it found. -/
theorem equality_ignores_element_kinds :
    (∀ (rs : Registers) (l r d : Register) (a b : Value), rs.get? l = some a → rs.get? r = some b →
      ∃ holds, (Instruction.relate .equal l r d).effect rs = .ok (.write d (.bool holds)) ∧
        holds = a.same b ∧ (holds = true ↔ a.bare = b.bare)) ∧
      (∀ (element other : Kind) (xs ys : List (String × Value)), Entries.Sorted xs →
        Entries.Sorted ys →
        ((Value.map element xs).same (.map other ys) = true ↔
          ∀ key, Option.Rel (fun v w => v.same w = true)
            (Entries.get? key xs) (Entries.get? key ys))) ∧
      (Equivalence fun a b : Value => a.same b = true) ∧
      (∀ a b : Value, a.same b = true → a.display = b.display ∧ a.key = b.key) ∧
      (∀ (i : Instruction) (rs qs : Registers), rs.Same qs →
        Agree Fault.Same Effect.Same (i.effect rs) (i.effect qs)) ∧
      ∀ (code : List Instruction) (steps : Nat) (s t : State), s.Same t →
        (State.runFor code steps s).1.Same (State.runFor code steps t).1 ∧
        (State.runFor code steps s).2.Same (State.runFor code steps t).2 := by
  refine ⟨fun rs l r d a b ha hb => ⟨a.same b, ?_, rfl, Value.same_iff_bare⟩,
    fun _ _ _ _ hx hy => Value.same_map_iff_lookup hx hy, Value.same_equivalence,
    fun _ _ h => ⟨Value.display_eq_of_same h, Value.key_eq_of_same h⟩,
    fun i _ _ h => i.effect_agree h, fun _ steps _ _ h => State.runFor_same h steps⟩
  simp only [Instruction.effect, Registers.read_eq_ok_iff.2 ha, Registers.read_eq_ok_iff.2 hb,
    Relation.apply, bind, Except.bind, pure, Except.pure]

/-- A map of an array of numbers that knows what its elements are, inside and outside. -/
def taggedMap : Value := .map (.array .number) [("k", .array .number [.number ⟨1, 0⟩])]

/-- The same map, as one that had other elements before. -/
def mixedMap : Value := .map .any [("k", .array .any [.number ⟨1, 0⟩])]

/-- Registers with a value, a key and a number. -/
def besideKey (v : Value) : Registers := ⟨[some v, some (.string "k"), some (.number ⟨1, 0⟩)]⟩

theorem same_besideKey : (besideKey taggedMap).Same (besideKey mixedMap) := by
  intro r
  match r with
  | 0 => exact .some rfl
  | 1 => exact .some (Value.same_refl _)
  | 2 => exact .some (Value.same_refl _)
  | n + 3 => exact .none

/-- A map and one with other element kinds at two depths: equal, with the same text, and the same to
instructions. -/
theorem equality_ignores_element_kinds_twoDepths :
    (∃ holds, (Instruction.relate .equal 0 1 2).effect ⟨[some taggedMap, some mixedMap]⟩ =
      .ok (.write 2 (.bool holds)) ∧
      holds = taggedMap.same mixedMap ∧ (holds = true ↔ taggedMap.bare = mixedMap.bare)) ∧
      taggedMap.same mixedMap = true ∧ taggedMap.display = mixedMap.display ∧
      Agree Fault.Same Effect.Same ((Instruction.getEntry 0 1 3).effect (besideKey taggedMap))
        ((Instruction.getEntry 0 1 3).effect (besideKey mixedMap)) ∧
      (State.runFor [.getEntry 0 1 3, .print [0, 3]] 2
        ⟨besideKey taggedMap, 0, Sink.new none⟩).1.Same (State.runFor
          [.getEntry 0 1 3, .print [0, 3]] 2 ⟨besideKey mixedMap, 0, Sink.new none⟩).1 := by
  have hlookup : ∀ key, Option.Rel (fun v w => v.same w = true)
      (Entries.get? key [("k", Value.array .number [.number ⟨1, 0⟩])])
      (Entries.get? key [("k", Value.array .any [.number ⟨1, 0⟩])]) := by
    intro key
    by_cases hkey : key = "k"
    · rw [hkey, Entries.get?_cons_self, Entries.get?_cons_self]
      exact .some rfl
    · rw [Entries.get?_cons_of_ne hkey, Entries.get?_cons_of_ne hkey]
      exact .none
  obtain ⟨hequal, hmaps, _, htext, hinstruction, hrun⟩ := equality_ignores_element_kinds
  have hsame : taggedMap.same mixedMap = true :=
    (hmaps _ _ _ _ (List.pairwise_singleton _ _) (List.pairwise_singleton _ _)).2 hlookup
  exact ⟨hequal _ 0 1 2 _ _ rfl rfl, hsame, (htext _ _ hsame).1, hinstruction _ _ _ same_besideKey,
    (hrun _ 2 ⟨besideKey taggedMap, 0, Sink.new none⟩ ⟨besideKey mixedMap, 0, Sink.new none⟩
      ⟨rfl, rfl, same_besideKey⟩).1⟩

/-- Both maps in one register file, and a number. -/
def twoMaps : Registers := ⟨[some taggedMap, some mixedMap, some (.number ⟨1, 0⟩)]⟩

/-- The fault is where element kinds show: of two equal maps in a comparison with a number, each is
refused with the kind of its own elements. -/
theorem mismatch_shows_element_kinds :
    (Instruction.relate .equal 0 1 3).effect twoMaps = .ok (.write 3 (.bool true)) ∧
    ((Instruction.relate .less 0 2 4).effect twoMaps).mapError Fault.message =
      .error "expected number, string or char, got \x7b\x7d[]number" ∧
    ((Instruction.relate .less 1 2 4).effect twoMaps).mapError Fault.message =
      .error "expected number, string or char, got \x7b\x7dany" ∧
    ¬ Agree Eq Effect.Same ((Instruction.relate .less 0 2 4).effect twoMaps)
      ((Instruction.relate .less 1 2 4).effect twoMaps) := by
  refine ⟨rfl, rfl, rfl, fun h => ?_⟩
  cases h with
  | error heq => cases heq

end LineScript
