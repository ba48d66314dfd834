import LineScript.Proofs.Code.Sites
import LineScript.Proofs.Code.Variables
import LineScript.Proofs.Value.Conforms

/-!
# What is known in advance of kinds

Lowering keeps a hint with each register: the kind of what the register will hold. This module says
when the hints are right. The invariant is `Typed`: the register of every variable holds what the
binding of the variable says. A register that belongs to no variable is written for one purpose and
its hint stays right. The register of a variable is another matter, for a hint about it is out of
date as soon as the variable is assigned anew. `Trusted` is what is known about an operand in
general, and `Fresh` is what is missing: the hint is the one in the current binding.

`Steady` collects the places where lowering relies on hints:

* an expression uses the hints of its operands when all of them have been computed (`uses`);
* a store uses those of its container and its value (`stores`);
* behind `and` and `or`, the right operand has been copied, and the scope is the one it leaves, also
  where it is skipped (`joins`).

`Lowering.expr_typed` derives from it that every hint is right, whatever the run does. A program
whose assignments stand at the roots of statements is steady (`steady_of_assignsAtRoot`).

The hints come in two strengths. If `strict` holds, a register with a hint is not empty; otherwise
the hint only says what is there if anything is.
-/

set_option autoImplicit false

namespace LineScript

open State Emit

/-- What a register holds is of the kind that is known, if one is. -/
def Fits (strict : Prop) (kind : Option Kind) (held : Option Value) : Prop :=
  ∀ k, kind = some k → (∀ v, held = some v → v.conforms k = true) ∧ (strict → held ≠ none)

theorem Fits.of_conforms {strict : Prop} {kind : Option Kind} {v : Value}
    (h : ∀ k, kind = some k → v.conforms k = true) : Fits strict kind (some v) := by
  intro k hk
  refine ⟨fun u hu => ?_, fun _ => Option.some_ne_none v⟩
  exact Option.some.inj hu ▸ h k hk

theorem Fits.of_held {strict : Prop} {kind : Option Kind} {held : Option Value} {v : Value}
    (hv : held = some v) (h : ∀ k, kind = some k → v.conforms k = true) : Fits strict kind held :=
  hv ▸ .of_conforms h

/-- The hint of an operand is right. -/
abbrev Sound (strict : Prop) (s : State) (o : Operand) : Prop :=
  Fits strict o.kind (s.registers.get? o.register)

/-- The hints of all variables are right. -/
abbrev Typed (strict : Prop) (scope : Scope) (s : State) : Prop :=
  Variables (fun _ b held => Fits strict b.kind held) scope s

/-- The operand has the hint of the variable it belongs to, if it belongs to one. -/
def Fresh (scope : Scope) (o : Operand) : Prop :=
  ∀ x b, scope.find? x = some b → b.register = o.register → ∀ k, o.kind = some k → b.kind = some k

/-- The operand belongs to a variable, or its hint is right. -/
structure Trusted (strict : Prop) (scope : Scope) (s : State) (o : Operand) : Prop where
  lt : o.register < scope.registers
  sound : (∃ x b, scope.find? x = some b ∧ b.register = o.register) ∨ Sound strict s o

variable {strict : Prop} {A : String → Prop} {code : List Instruction} {scope after : Scope}
    {s t : State} {o : Operand}

theorem Trusted.sound_of_fresh (h : Trusted strict scope s o) (ht : Typed strict scope s)
    (hf : Fresh scope o) : Sound strict s o := by
  rcases h.sound with ⟨x, b, hb, hr⟩ | hs
  · intro k hk
    rw [← hr]
    exact ht.holds hb k (hf x b hb hr k hk)
  · exact hs

/-- What is known about an operand outlasts the code that follows it. -/
theorem Trusted.ran (h : Trusted strict scope s o) (hr : Lowering.Ran A scope s after t) :
    Trusted strict after t o := by
  refine ⟨Nat.lt_of_lt_of_le h.lt hr.since.le, ?_⟩
  -- A register that belongs to a variable may have been written since; nothing else may.
  by_cases hvar : ∃ x b, scope.find? x = some b ∧ b.register = o.register
  · obtain ⟨x, b, hb, hbo⟩ := hvar
    obtain ⟨c, hc, hcb⟩ := hr.since.keeps hb
    exact Or.inl ⟨x, c, hc, hcb.trans hbo⟩
  · right
    have hkept : t.registers.get? o.register = s.registers.get? o.register := by
      refine hr.kept ?_
      rintro (hle | ⟨x, b, _, hb, hbo⟩)
      · exact Nat.not_lt.2 hle h.lt
      · exact hvar ⟨x, b, hb, hbo⟩
    rcases h.sound with hvar' | hs
    · exact absurd hvar' hvar
    · unfold Sound
      rw [hkept]
      exact hs

/-! ## Steadiness -/

/-- The scope behind a right operand that may have been skipped: a hint there was there before, or
belongs to a variable that is new. -/
def Joins (strict : Prop) (before after : Scope) : Prop :=
  ∀ x c k, after.find? x = some c → c.kind = some k →
    (∃ b, before.find? x = some b ∧ b.kind = some k) ∨ ¬ strict ∧ before.find? x = none

/-- The expression relies on the hints of its operands. -/
def Expr.reliesOnHints : Expr → Bool
  | .array _ => true
  | .map _ => true
  | .element _ _ => true
  | .binary _ (.relation _) _ => false
  | .binary _ _ _ => true
  | _ => false

/-- No hint is out of date where lowering relies on it. -/
structure Steady (strict : Prop) (p : Program) : Prop where
  uses : ∀ {e n scope os stop after}, Lowering.Site p (.value e) n scope → e.reliesOnHints = true →
    (Lowering.exprs e.operands).Yields n scope os stop after → ∀ o ∈ os, Fresh after o
  stores :
      ∀ {base key value n scope c k stop after},
        Lowering.Site p (.store (.element base key) value) n scope →
        (Lowering.exprs [base, key]).Yields n scope [c, k] stop after →
        Fresh after c ∧ Fresh after value
  joins :
      ∀ {left op right n scope l r stop mid stop' after},
        Lowering.Site p (.value (.binary left op right)) n scope → op = .and ∨ op = .or →
        (Lowering.expr left).Yields n scope l stop mid →
        (Lowering.expr right).Yields (stop + 2) { mid with registers := mid.registers + 1 } r stop'
          after → Joins strict mid after ∧ Fresh after r

theorem Variables.join (h : Typed strict scope s) (hs : Scope.Since A scope after)
    (hj : Joins strict scope after) : Typed strict after s := by
  refine h.skipped hs fun x c hc k hk => ?_
  rcases hj x c k hc hk with ⟨b, hb, hbk⟩ | ⟨hstrict, hn⟩
  · obtain ⟨d, hd, hdb⟩ := hs.keeps hb
    obtain rfl : d = c := Option.some.inj (hd.symm.trans hc)
    rw [hdb]
    exact h.holds hb k hbk
  · -- The variable is new, and its register is empty.
    have hempty : s.registers.get? c.register = none := h.vacant (hs.issued hn hc)
    refine ⟨fun v hv => ?_, fun hstrict' => absurd hstrict' hstrict⟩
    rw [hempty] at hv
    cases hv

/-! ## What is asked of a run -/

/-- An array is only made of items that are of its element kind. -/
def Trusting (code : List Instruction) (u : State) : Prop :=
  ∀ kind elements result items, code[u.next]? = some (.makeArray kind elements result) →
    elements.map u.registers.get? = List.map some items → ∀ v ∈ items, v.conforms kind = true

/-- The faults that would show a hint to be wrong. -/
def Fault.refutesHint : Instruction → Fault → Bool
  | .concat .., .mismatch .string _ => true
  | .combine .., .mismatch .data _ => true
  | .getItem .., .mismatch .array _ => true
  | .setItem .., .mismatch .array _ => true
  | _, _ => false

theorem trusting_of_ne {i : Instruction} (hi : code[s.next]? = some i)
    (hne : ∀ kind elements result, i ≠ .makeArray kind elements result) : Trusting code s := by
  intro kind elements result items hmake
  exact absurd (Option.some.inj (hi.symm.trans hmake)) (hne _ _ _)

/-! ## Faults that do not happen -/

section Faults

variable {rs : Registers} {l r d : Register} {fault : Fault}

/-- Joining data never finds anything else. -/
theorem combine_keeps_hint (hl : ∀ v, rs.get? l = some v → v.conforms .data = true)
    (hr : ∀ v, rs.get? r = some v → v.conforms .data = true)
    (h : (Instruction.combine l r d).effect rs = .error fault) :
    Fault.refutesHint (.combine l r d) fault = false := by
  have hdata : ∀ {v : Value}, v.conforms .data = true → v.asData ≠ .error fault := by
    intro v hv
    obtain ⟨bytes, rfl⟩ := Value.conforms_data_iff.1 hv
    simp [Value.asData]
  simp only [Instruction.effect, bind_eq_error_iff, Registers.read_eq_error_iff,
    Registers.read_eq_ok_iff, pure_ne_error, and_false, exists_false, or_false] at h
  rcases h with ⟨_, rfl⟩ | ⟨v, hv, h | ⟨_, _, ⟨_, rfl⟩ | ⟨u, hu, h⟩⟩⟩
  · rfl
  · exact absurd h (hdata (hl v hv))
  · rfl
  · exact absurd h (hdata (hr u hu))

/-- Joining strings never finds anything else. -/
theorem concat_keeps_hint (hl : ∀ v, rs.get? l = some v → v.conforms .string = true)
    (hr : ∀ v, rs.get? r = some v → v.conforms .string = true)
    (h : (Instruction.concat l r d).effect rs = .error fault) :
    Fault.refutesHint (.concat l r d) fault = false := by
  have hstring : ∀ {v : Value}, v.conforms .string = true → v.asString ≠ .error fault := by
    intro v hv
    obtain ⟨bytes, rfl⟩ := Value.conforms_string_iff.1 hv
    simp [Value.asString]
  simp only [Instruction.effect, bind_eq_error_iff, Registers.read_eq_error_iff,
    Registers.read_eq_ok_iff, pure_ne_error, and_false, exists_false, or_false] at h
  rcases h with ⟨_, rfl⟩ | ⟨v, hv, h | ⟨_, _, ⟨_, rfl⟩ | ⟨u, hu, h⟩⟩⟩
  · rfl
  · exact absurd h (hstring (hl v hv))
  · rfl
  · exact absurd h (hstring (hr u hu))

theorem asNumber_fault {v : Value} (h : v.asNumber = .error fault) :
    ∃ found, fault = .mismatch .number found := by
  cases v with
  | number n => cases h
  | _ => exact ⟨_, (Except.error.inj h).symm⟩

theorem position_fault {index : Decimal} {length : Nat}
    (h : Value.position index length = .error fault) : ∀ found, fault ≠ .mismatch .array found := by
  unfold Value.position at h
  split at h
  · split at h
    · split at h
      · cases h
      · cases h
        simp
    · cases h
      simp
  · cases h
    simp

theorem getItem_fault {a : Value} {index : Decimal} {element : Kind}
    (ha : a.conforms (.array element) = true) (h : a.getItem index = .error fault) :
    ∀ found, fault ≠ .mismatch .array found := by
  obtain ⟨tag, items, rfl, _⟩ := Value.conforms_array_iff.1 ha
  simp only [Value.getItem, bind_eq_error_iff] at h
  rcases h with h | ⟨i, _, h⟩
  · exact position_fault h
  · split at h
    · cases h
    · cases h
      simp

theorem setItem_fault {a v : Value} {index : Decimal} {element : Kind}
    (ha : a.conforms (.array element) = true) (h : a.setItem index v = .error fault) :
    ∀ found, fault ≠ .mismatch .array found := by
  obtain ⟨tag, items, rfl, _⟩ := Value.conforms_array_iff.1 ha
  simp only [Value.setItem, bind_eq_error_iff, pure_ne_error, and_false, exists_false,
    or_false] at h
  exact position_fault h

theorem getItem_keeps_hint {element : Kind}
    (hl : ∀ v, rs.get? l = some v → v.conforms (.array element) = true)
    (h : (Instruction.getItem l r d).effect rs = .error fault) :
    Fault.refutesHint (.getItem l r d) fault = false := by
  simp only [Instruction.effect, bind_eq_error_iff, Registers.read_eq_error_iff,
    Registers.read_eq_ok_iff, pure_ne_error, and_false, exists_false, or_false] at h
  rcases h with ⟨_, rfl⟩ | ⟨_, _, h | ⟨_, _, ⟨_, rfl⟩ | ⟨a, ha, h⟩⟩⟩
  · rfl
  · obtain ⟨_, rfl⟩ := asNumber_fault h
    rfl
  · rfl
  · have hne := getItem_fault (hl a ha) h
    unfold Fault.refutesHint
    split <;> simp_all

theorem setItem_keeps_hint {element : Kind}
    (hl : ∀ v, rs.get? l = some v → v.conforms (.array element) = true)
    (h : (Instruction.setItem l r d).effect rs = .error fault) :
    Fault.refutesHint (.setItem l r d) fault = false := by
  simp only [Instruction.effect, bind_eq_error_iff, Registers.read_eq_error_iff,
    Registers.read_eq_ok_iff, pure_ne_error, and_false, exists_false, or_false] at h
  rcases h with ⟨_, rfl⟩ | ⟨_, _, h | ⟨_, _, ⟨_, rfl⟩ | ⟨v, _, ⟨_, rfl⟩ | ⟨a, ha, h⟩⟩⟩⟩
  · rfl
  · obtain ⟨_, rfl⟩ := asNumber_fault h
    rfl
  · rfl
  · rfl
  · have hne := setItem_fault (hl a ha) h
    unfold Fault.refutesHint
    split <;> simp_all

end Faults

namespace Lowering

/-- A piece of code in which no hint that is relied on turns out to be wrong. -/
abbrev checks {α : Type} (code : List Instruction) (x : Emit α) (Q : α → Scope → State → Prop)
    (scope : Scope) (s : State) : Prop :=
  wp code (Trusting code) (fun i fault => fault.refutesHint i = false) x Q scope s

/-- The hints of variables are right, and so is that of the operand, as long as it is up to date. -/
abbrev Kept (strict : Prop) (o : Operand) (scope : Scope) (s : State) : Prop :=
  Typed strict scope s ∧ Trusted strict scope s o

/-! ## Single instructions -/

theorem into_sound {i : Register → Instruction} {kind : Option Kind} (ht : Typed strict scope s)
    (hI : code[s.next]? = some (i scope.registers) → Trusting code s)
    (hE : ∀ fault, (i scope.registers).effect s.registers = .error fault →
      fault.refutesHint (i scope.registers) = false)
    (hv : ∀ effect, (i scope.registers).effect s.registers = .ok effect →
      ∃ v, effect = .write scope.registers v ∧ ∀ k, kind = some k → v.conforms k = true) :
    checks code (into i kind) (fun o after t => Kept strict o after t ∧ Sound strict t o)
      scope s := by
  refine wp_into hI hE fun effect he => ?_
  obtain ⟨v, rfl, hk⟩ := hv effect he
  have hsound : Sound strict (s.wrote scope.registers v) ⟨scope.registers, kind⟩ :=
    .of_held (wrote_get?_self _ _ _) hk
  exact ⟨v, rfl, ⟨ht.wrote_fresh, Nat.lt_succ_self _, Or.inr hsound⟩, hsound⟩

theorem into_typed {i : Register → Instruction} {kind : Option Kind} (ht : Typed strict scope s)
    (hI : code[s.next]? = some (i scope.registers) → Trusting code s)
    (hE : ∀ fault, (i scope.registers).effect s.registers = .error fault →
      fault.refutesHint (i scope.registers) = false)
    (hv : ∀ effect, (i scope.registers).effect s.registers = .ok effect →
      ∃ v, effect = .write scope.registers v ∧ ∀ k, kind = some k → v.conforms k = true) :
    checks code (into i kind) (Kept strict) scope s :=
  wp_mono (into_sound ht hI hE hv) fun _ _ _ _ h => h.1

/-- Arithmetic yields numbers; the joins that stand in for addition yield what they join. -/
theorem arith_typed {op : Arith} {l r : Operand} (ht : Typed strict scope s) (hl : Sound strict s l)
    (hr : Sound strict s r) :
    checks code (arith op l r) (fun o after t => Kept strict o after t ∧ Sound strict t o)
      scope s := by
  unfold arith
  split
  · rename_i hlk hrk
    refine into_sound ht (fun hi => trusting_of_ne hi (by simp)) (fun _ he => ?_)
      fun effect he => ?_
    · exact combine_keeps_hint (hl _ hlk).1 (hr _ hrk).1 he
    · obtain ⟨a, b, _, _, rfl⟩ := Instruction.effect_combine he
      exact ⟨_, rfl, fun k hk => Option.some.inj hk ▸ rfl⟩
  · rename_i hlk hrk
    refine into_sound ht (fun hi => trusting_of_ne hi (by simp)) (fun _ he => ?_)
      fun effect he => ?_
    · exact concat_keeps_hint (hl _ hlk).1 (hr _ hrk).1 he
    · obtain ⟨a, b, _, _, rfl⟩ := Instruction.effect_concat he
      exact ⟨_, rfl, fun k hk => Option.some.inj hk ▸ rfl⟩
  · refine into_sound ht (fun hi => trusting_of_ne hi (by simp)) (fun _ _ => rfl)
      fun effect he => ?_
    obtain ⟨a, b, n, _, _, _, rfl⟩ := Instruction.effect_arith he
    exact ⟨_, rfl, fun k hk => Option.some.inj hk ▸ rfl⟩

theorem negation_typed {op : UnaryOp} (ht : Typed strict scope s) :
    checks code (negation op o) (Kept strict) scope s := by
  cases op with
  | not =>
    refine into_typed ht (fun hi => trusting_of_ne hi (by simp)) (fun _ _ => rfl)
      fun effect he => ?_
    obtain ⟨a, _, rfl⟩ := Instruction.effect_not he
    exact ⟨_, rfl, fun k hk => Option.some.inj hk ▸ rfl⟩
  | negate =>
    refine into_typed ht (fun hi => trusting_of_ne hi (by simp)) (fun _ _ => rfl)
      fun effect he => ?_
    obtain ⟨a, n, _, _, rfl⟩ := Instruction.effect_negate he
    exact ⟨_, rfl, fun k hk => Option.some.inj hk ▸ rfl⟩

/-- An element kind of `any` says nothing about an element. -/
theorem conforms_of_known {v : Value} {element : Kind} (h : v.conforms element = true) :
    ∀ k, element.known? = some k → v.conforms k = true := by
  intro k hk
  have hkind : element = k := by
    cases element <;> first | exact Option.some.inj hk | cases hk
  exact hkind ▸ h

theorem get_typed {container key : Operand} (ht : Typed strict scope s)
    (hc : Sound strict s container) : checks code (get container key) (Kept strict) scope s := by
  unfold get
  split
  · rename_i element hkind
    refine wp_bind (wp_checkIndex ?_)
    refine into_typed ht (fun hi => trusting_of_ne hi (by simp)) (fun _ he => ?_)
      fun effect he => ?_
    · exact getItem_keeps_hint (hc _ hkind).1 he
    · obtain ⟨a, i, v, ha, _, hv, rfl⟩ := Instruction.effect_getItem he
      have hitem := Value.conforms_of_getItem ((hc _ hkind).1 a ha) hv
      exact ⟨v, rfl, conforms_of_known hitem⟩
  · rename_i element hkind
    refine into_typed ht (fun hi => trusting_of_ne hi (by simp)) (fun _ _ => rfl)
      fun effect he => ?_
    obtain ⟨m, k, v, hm, _, hv, rfl⟩ := Instruction.effect_getEntry he
    have hentry := Value.conforms_of_getEntry ((hc _ hkind).1 m hm) hv
    exact ⟨v, rfl, conforms_of_known hentry⟩
  · refine into_typed ht (fun hi => trusting_of_ne hi (by simp)) (fun _ _ => rfl)
      fun effect he => ?_
    obtain ⟨m, k, v, _, _, _, rfl⟩ := Instruction.effect_getEntry he
    exact ⟨v, rfl, fun _ hk => nomatch hk⟩

/-- A container is updated in place, and the hint that goes with it is right again. -/
theorem put_typed {container key value : Operand} {Q : Operand → Scope → State → Prop}
    (hc : Sound strict s container) (hv : Sound strict s value)
    (hQ : ∀ kind new, (∀ k, kind = some k → new.conforms k = true) →
      Q ⟨container.register, kind⟩ scope (s.wrote container.register new)) :
    checks code (put container key value) Q scope s := by
  have hstored : ∀ v, s.registers.get? value.register = some v →
      ∀ k, value.kind = some k → v.conforms k = true :=
    fun v hget k hk => (hv k hk).1 v hget
  unfold put
  split
  · rename_i element hkind
    refine wp_bind (wp_checkIndex (wp_bind
      (wp_write (fun hi => trusting_of_ne hi (by simp)) (fun _ he => ?_) fun effect he => ?_)))
    · exact setItem_keeps_hint (hc _ hkind).1 he
    · obtain ⟨a, i, v, new, ha, _, hget, hnew, rfl⟩ := Instruction.effect_setItem he
      refine ⟨_, new, rfl, wp_pure (hQ _ new fun k hk => ?_)⟩
      obtain rfl := Option.some.inj hk
      exact Value.conforms_of_setItem ((hc _ hkind).1 a ha) (hstored v hget) hnew
  · rename_i element hkind
    refine wp_bind
      (wp_write (fun hi => trusting_of_ne hi (by simp)) (fun _ _ => rfl) fun effect he => ?_)
    obtain ⟨m, k, v, new, hm, _, hget, hnew, rfl⟩ := Instruction.effect_setEntry he
    refine ⟨_, new, rfl, wp_pure (hQ _ new fun k hk => ?_)⟩
    obtain rfl := Option.some.inj hk
    exact Value.conforms_of_setEntry ((hc _ hkind).1 m hm) (hstored v hget) hnew
  · rename_i harray hmap
    refine wp_bind
      (wp_write (fun hi => trusting_of_ne hi (by simp)) (fun _ _ => rfl) fun effect he => ?_)
    obtain ⟨m, k, v, new, hm, _, hget, hnew, rfl⟩ := Instruction.effect_setEntry he
    refine ⟨_, new, rfl, wp_pure (hQ _ new fun k hk => ?_)⟩
    -- The instruction is carried out on a map only, and a hint would have said so.
    obtain ⟨tag, entries, rfl, rfl⟩ := Value.setEntry_eq_ok_iff.1 hnew
    have hconf := (hc k hk).1 _ hm
    cases k with
    | array element => exact absurd hk (harray element)
    | map element => exact absurd hk (hmap element)
    | any => exact Value.conforms_any _
    | _ => cases hconf

/-! ## Operands -/

/-- The element kind of a new container is that of everything put into it. -/
theorem conforms_commonKind {os : List Operand} (h : ∀ o ∈ os, Sound strict s o) {v : Value}
    (ho : o ∈ os) (hv : s.registers.get? o.register = some v) :
    v.conforms (commonKind os) = true := by
  cases os with
  | nil => cases ho
  | cons first rest =>
    obtain ⟨register, kind⟩ := first
    cases kind with
    | none => exact Value.conforms_any v
    | some kind =>
      rw [commonKind]
      split
      · rename_i hall
        have hkind : o.kind = some kind := by
          rcases List.mem_cons.1 ho with rfl | ho
          · rfl
          · simpa using List.all_eq_true.1 hall o ho
        exact (h o ho kind hkind).1 v hv
      · exact Value.conforms_any v

theorem widen_self (kind : Kind) : kind.widen (some kind) = kind := if_pos (Or.inr rfl)

/-- Entries of the map's element kind keep the map of its kind. -/
theorem putEntries_typed {map : Register} (kind : Kind) {pairs : List (Operand × Operand)}
    (ht : Typed strict scope s) (hlt : map < scope.registers)
    (hvar : ∀ x b, scope.find? x = some b → b.register ≠ map)
    (hne : ∀ p ∈ pairs, p.2.register ≠ map)
    (hvalues : ∀ p ∈ pairs, ∀ v, s.registers.get? p.2.register = some v → v.conforms kind = true)
    (hmap : Sound strict s ⟨map, some (.map kind)⟩) :
    checks code (putEntries map pairs) (fun _ after t => after = scope ∧ Typed strict scope t ∧
      Sound strict t ⟨map, some (.map kind)⟩) scope s := by
  induction pairs generalizing s with
  | nil => exact wp_pure ⟨rfl, ht, hmap⟩
  | cons p rest ih =>
    refine wp_bind
      (wp_write (fun hi => trusting_of_ne hi (by simp)) (fun _ _ => rfl) fun effect he => ?_)
    obtain ⟨m, k, v, new, hm, _, hv, hnew, rfl⟩ := Instruction.effect_setEntry he
    have hstored : ∀ k, some kind = some k → v.conforms k = true :=
      fun k hk => Option.some.inj hk ▸ hvalues p List.mem_cons_self v hv
    have hconf := Value.conforms_of_setEntry ((hmap _ rfl).1 m hm) hstored hnew
    rw [widen_self] at hconf
    refine ⟨map, new, rfl,
      ih (ht.wrote hlt hvar) (fun q hq => hne q (List.mem_cons_of_mem _ hq)) ?_ ?_⟩
    · intro q hq u hu
      rw [wrote_get?_of_ne (hne q (List.mem_cons_of_mem _ hq))] at hu
      exact hvalues q (List.mem_cons_of_mem _ hq) u hu
    · exact .of_held (wrote_get?_self _ _ _) fun k hk => Option.some.inj hk ▸ hconf

/-- The code of an expression, and the code that stores into it, keeps hints right at every site. -/
structure TypedAt (strict : Prop) (p : Program) (e : Expr) : Prop where
  expr : ∀ {code scope s}, Site p (.value e) s.next scope → Typed strict scope s →
    checks code (Lowering.expr e) (Kept strict) scope s
  store : ∀ {code scope s value}, Site p (.store e value) s.next scope → Typed strict scope s →
    Trusted strict scope s value → Sound strict s value →
    checks code (Lowering.store e value) (fun _ => Typed strict) scope s

variable {p : Program}

/-- Operands one after the other. -/
theorem exprs_typed {task : Task} {n : Nat} {base : Scope} {earlier es later : List Expr}
    {os : List Operand} (hsite : Site p task n base)
    (hops : task.operands = earlier ++ (es ++ later))
    (hpre : (exprs earlier).Yields n base os s.next scope) (h : ∀ e ∈ es, TypedAt strict p e)
    (ht : Typed strict scope s) (hos : ∀ o ∈ os, Trusted strict scope s o) :
    checks code (exprs es) (fun new after t => (exprs (earlier ++ es)).Yields n base (os ++ new)
      t.next after ∧ Typed strict after t ∧ ∀ o ∈ os ++ new, Trusted strict after t o) scope s := by
  -- On the operands to come; those computed before them are only kept.
  induction es generalizing earlier os scope s with
  | nil =>
    rw [exprs]
    refine wp_pure ⟨?_, ht, ?_⟩
    · rw [List.append_nil, List.append_nil]
      exact hpre
    · rwa [List.append_nil]
  | cons e es ih =>
    have hchild : Site p (.value e) s.next scope := .operand hsite hops hpre
    rw [exprs]
    refine wp_bind
      (wp_mono (expr_ran e.assignsOnly_true ht.wf ((h e List.mem_cons_self).expr hchild ht)) ?_)
    rintro o mid t₁ hyields ⟨⟨ht₁, ho⟩, hran, _⟩
    have hops' : task.operands = (earlier ++ [e]) ++ (es ++ later) := by simpa using hops
    refine wp_bind (wp_mono
      (ih hops' (exprs_snoc hpre hyields) (fun e he => h e (List.mem_cons_of_mem _ he)) ht₁ ?_) ?_)
    · intro q hq
      rcases List.mem_append.1 hq with hq | hq
      · exact (hos q hq).ran hran
      · exact List.mem_singleton.1 hq ▸ ho
    · rintro new after t₂ _ ⟨hall, ht₂, hnew⟩
      simp only [List.append_assoc, List.singleton_append] at hall hnew
      exact wp_pure ⟨hall, ht₂, hnew⟩

/-! ## Connectives -/

/-- `and` and `or` yield one of their operands; only if both are known to be truth values is the
result. -/
theorem conforms_eitherKind {l r : Operand} {v : Value}
    (hv : (∀ k, l.kind = some k → v.conforms k = true) ∨
      ∀ k, r.kind = some k → v.conforms k = true) :
    ∀ k, eitherKind l r = some k → v.conforms k = true := by
  intro k hk
  unfold eitherKind at hk
  split at hk
  · rename_i hboth
    obtain rfl := Option.some.inj hk
    rcases hv with hv | hv
    · exact hv _ hboth.1
    · exact hv _ hboth.2
  · cases hk

theorem connect_typed {jump : Register → Nat → Instruction} {taken : Bool} {l : Operand}
    {right : Expr} (hjump : ∀ r, Branches (jump r) r taken)
    (hmake : ∀ r target kind elements result, jump r target ≠ .makeArray kind elements result)
    (hplain : ∀ r target fault, Fault.refutesHint (jump r target) fault = false)
    (hr : TypedAt strict p right)
    (hsite : Site p (.value right) (s.next + 2) { scope with registers := scope.registers + 1 })
    (hjoin : ∀ r stop after,
      (Lowering.expr right).Yields (s.next + 2) { scope with registers := scope.registers + 1 }
        r stop after → Joins strict scope after ∧ Fresh after r) (ht : Typed strict scope s)
    (hl : Sound strict s l) : checks code (connect jump l (expr right)) (Kept strict) scope s := by
  refine wp_bind
    (wp_into (fun hi => trusting_of_ne hi (by simp)) (fun _ _ => rfl) fun effect he => ?_)
  obtain ⟨a, ha, rfl⟩ := Instruction.effect_copy he
  refine ⟨a, rfl, ?_⟩
  have ht₁ := ht.wrote_fresh (v := a)
  have hleft : ∀ k, l.kind = some k → a.conforms k = true := fun k hk => (hl k hk).1 a ha
  -- The register of the result belongs to no variable, now or after the right operand.
  have hresult : Resides scope none ⟨scope.registers, none⟩
      { scope with registers := scope.registers + 1 } :=
    .issued (A := fun _ => True) (.refl ht.wf)
  refine wp_bind (wp_branch (hjump _) (fun _ hi => trusting_of_ne hi (hmake _ _))
    (fun _ _ _ => hplain _ _ _) ?_ ?_)
  · intro v _ _
    have hspec : checks code (Lowering.expr right) (Kept strict) _
        (s.wrote scope.registers a).advance :=
      hr.expr hsite ht₁.moved
    refine wp_bind (wp_mono (expr_ran right.assignsOnly_true ht₁.wf hspec) ?_)
    rintro r after t hyields ⟨⟨ht₂, hr₂⟩, hran, _⟩
    have hsound := hr₂.sound_of_fresh ht₂ (hjoin r _ after hyields).2
    have hafter := hresult.since hran.since
    refine wp_bind
      (wp_write (fun hi => trusting_of_ne hi (by simp)) (fun _ _ => rfl) fun effect he => ?_)
    obtain ⟨b, hb, rfl⟩ := Instruction.effect_copy he
    refine ⟨_, b, rfl,
      wp_pure (wp_pure ⟨ht₂.wrote hafter.lt (hafter.unnamed rfl).2, hafter.lt, Or.inr ?_⟩)⟩
    exact .of_held (wrote_get?_self _ _ _)
      (conforms_eitherKind (Or.inr fun k hk => (hsound k hk).1 b hb))
  · intro v target _ _ r stop after hyields
    obtain ⟨stop', piece, hpiece, hstop⟩ := yields_of_skipped hyields
    have hgrown := (expr_grown right.assignsOnly_true ht₁.wf hpiece).1.since
    refine wp_pure ⟨Variables.moved
      (ht₁.join hgrown (hjoin r stop' after ⟨piece, hpiece, hstop⟩).1), ?_, Or.inr ?_⟩
    · exact (hresult.since hgrown).lt
    · exact .of_held (wrote_get?_self s scope.registers a) (conforms_eitherKind (Or.inl hleft))

/-! ## Stores -/

theorem assign_typed {name : String} {value : Operand} (ht : Typed strict scope s)
    (hv : Sound strict s value) :
    checks code (assign name value) (fun _ => Typed strict) scope s := by
  have hcopy : ∀ {register : Register} {scope' : Scope},
      (∀ v, Fits strict value.kind (some v) →
        Typed strict (scope'.bind name ⟨register, value.kind⟩) (s.wrote register v)) →
      checks code (do
        Emit.instruction (.copy value.register register)
        Emit.bindName name ⟨register, value.kind⟩) (fun _ => Typed strict) scope' s := by
    intro register scope' hafter
    refine wp_bind
      (wp_write (fun hi => trusting_of_ne hi (by simp)) (fun _ _ => rfl) fun effect he => ?_)
    obtain ⟨v, hget, rfl⟩ := Instruction.effect_copy he
    unfold Sound at hv
    rw [hget] at hv
    exact ⟨_, v, rfl, wp_bindName (hafter v hv)⟩
  refine wp_bind (wp_find? ?_)
  cases hb : scope.find? name with
  | none => exact wp_bind (wp_fresh (hcopy fun v hfit => ht.bindNew hb hfit fun _ _ _ _ h => h))
  | some b =>
    exact wp_bind (wp_target (hcopy fun v hfit => ht.rebind hb rfl hfit fun _ _ _ _ h => h))

/-- A store into an element computes the container and the key first. By then the hints that it
relies on are right. -/
theorem container_typed {α : Type} {base key : Expr} {value : Operand}
    {f : Operand → Operand → Emit α} {Q : α → Scope → State → Prop}
    (hsteady : Steady strict p) (hb : TypedAt strict p base) (hk : TypedAt strict p key)
    (hsite : Site p (.store (.element base key) value) s.next scope)
    (ht : Typed strict scope s) (hv : Trusted strict scope s value)
    (hf : ∀ c k after t, (do let x ← expr base; let y ← expr key; pure (x, y)).Yields s.next
      scope (c, k) t.next after → Typed strict after t → Resides scope base.alias? c after →
      Sound strict t c → Sound strict t value → checks code (f c k) Q after t) :
    checks code (do let c ← expr base; let k ← expr key; f c k) Q scope s := by
  refine wp_bind (wp_mono (expr_ran base.assignsOnly_true ht.wf (hb.expr (hsite.first rfl) ht)) ?_)
  rintro c mid t₁ hyc ⟨⟨ht₁, hc⟩, hran₁, hres₁⟩
  refine wp_bind
    (wp_mono (expr_ran key.assignsOnly_true ht₁.wf (hk.expr (hsite.second rfl hyc) ht₁)) ?_)
  rintro k after t₂ hyk ⟨⟨ht₂, _⟩, hran₂, _⟩
  obtain ⟨hfc, hfv⟩ := hsteady.stores hsite (exprs_snoc (exprs_yields_one hyc) hyk)
  have hcs := (hc.ran hran₂).sound_of_fresh ht₂ hfc
  have hvs := ((hv.ran hran₁).ran hran₂).sound_of_fresh ht₂ hfv
  exact hf c k after t₂ (hyc.bind (hyk.bind ⟨[], rfl, rfl⟩)) ht₂ (hres₁.since hran₂.since) hcs hvs

/-- A container that belongs to no variable takes the value, and its hint is right again. -/
theorem put_copy_typed {c k value : Operand} {base : Scope} (ht : Typed strict scope s)
    (hres : Resides base none c scope) (hc : Sound strict s c) (hv : Sound strict s value) :
    checks code (put c k value) (fun o after t => Kept strict o after t ∧ Sound strict t o)
      scope s := by
  refine put_typed hc hv fun kind new hnew => ?_
  have hsound : Sound strict (s.wrote c.register new) ⟨c.register, kind⟩ :=
    .of_held (wrote_get?_self _ _ _) hnew
  exact ⟨⟨ht.wrote hres.lt (hres.unnamed rfl).2, hres.lt, Or.inr hsound⟩, hsound⟩

/-- A store into an element: the container is updated, and its hint with it. -/
theorem store_element_typed {base key : Expr} {value : Operand} (hsteady : Steady strict p)
    (hb : TypedAt strict p base) (hk : TypedAt strict p key)
    (hsite : Site p (.store (.element base key) value) s.next scope) (ht : Typed strict scope s)
    (hv : Trusted strict scope s value) :
    checks code (store (.element base key) value) (fun _ => Typed strict) scope s := by
  refine wp_of_ok fun a hok => ?_
  have htarget := target_of_store hok
  rw [store]
  refine container_typed hsteady hb hk hsite ht hv fun c k after t hy ht₂ hres hcs hvs => ?_
  rcases htarget with ⟨name, rfl⟩ | ⟨inner, innerKey, rfl⟩
  · -- The container is the variable itself, and its binding takes the new hint.
    obtain ⟨b, hfind, hreg⟩ := hres.named rfl
    refine wp_bind (put_typed hcs hvs fun kind new hnew => wp_bindName ?_)
    rw [← hreg]
    exact ht₂.rebind hfind rfl (.of_conforms hnew) fun _ _ _ _ h => h
  · -- The container is a copy, and is stored in its turn.
    refine wp_bind (wp_mono (put_copy_typed ht₂ hres hcs hvs) ?_)
    rintro o last t₃ hyo ⟨⟨ht₃, ho⟩, hs₃⟩
    exact hb.store (.back hsite (yields_of_pair hy hyo)) ht₃ ho hs₃

/-! ## Expressions -/

theorem map_typed {os : List Operand} (ht : Typed strict scope s)
    (hos : ∀ o ∈ os, o.register < scope.registers ∧ Sound strict s o) :
    checks code (do
      let pairs := pairUp os
      let kind := commonKind (pairs.map Prod.snd)
      let map ← into (.makeMap kind) (some (.map kind))
      putEntries map.register pairs
      pure map) (Kept strict) scope s := by
  have hvalues : ∀ o ∈ (pairUp os).map Prod.snd, o ∈ os := by
    intro o ho
    obtain ⟨q, hq, rfl⟩ := List.mem_map.1 ho
    exact (mem_pairUp hq).2
  refine wp_bind
    (wp_into (fun hi => trusting_of_ne hi (by simp)) (fun _ _ => rfl) fun effect he => ?_)
  obtain rfl := Except.ok.inj he
  refine ⟨_, rfl, ?_⟩
  have hresult : Resides scope none ⟨scope.registers, none⟩
      { scope with registers := scope.registers + 1 } :=
    .issued (A := fun _ => True) (.refl ht.wf)
  have hold : ∀ q ∈ pairUp os, q.2.register ≠ scope.registers :=
    fun q hq => Nat.ne_of_lt (hos _ (mem_pairUp hq).2).1
  refine wp_bind (wp_mono (putEntries_typed (commonKind ((pairUp os).map Prod.snd))
    ht.wrote_fresh hresult.lt (hresult.unnamed rfl).2 hold ?_
    (.of_held (wrote_get?_self _ _ _) fun k hk => Option.some.inj hk ▸ rfl)) ?_)
  · intro q hq v hv
    rw [wrote_get?_of_ne (hold q hq)] at hv
    exact conforms_commonKind (fun o ho => (hos o (hvalues o ho)).2) (List.mem_map_of_mem hq) hv
  · rintro _ _ t _ ⟨rfl, ht', hmap⟩
    exact wp_pure ⟨ht', hresult.lt, Or.inr hmap⟩

theorem array_typed {os : List Operand} (ht : Typed strict scope s)
    (hos : ∀ o ∈ os, Sound strict s o) :
    checks code
      (into (.makeArray (commonKind os) (os.map Operand.register)) (some (.array (commonKind os))))
      (Kept strict) scope s := by
  have hitems : ∀ items : List Value,
      (os.map Operand.register).map s.registers.get? = items.map some →
      ∀ v ∈ items, v.conforms (commonKind os) = true := by
    intro items heq v hv
    have hsome : some v ∈ (os.map Operand.register).map s.registers.get? :=
      heq ▸ List.mem_map_of_mem hv
    rw [List.map_map] at hsome
    obtain ⟨o, ho, hget⟩ := List.mem_map.1 hsome
    exact conforms_commonKind hos ho hget
  refine into_typed ht (fun hi => ?_) (fun _ _ => rfl) fun effect he => ?_
  · intro kind elements result items hmake heq
    obtain ⟨rfl, rfl, rfl⟩ := Instruction.makeArray.inj (Option.some.inj (hi.symm.trans hmake))
    exact hitems items heq
  · obtain ⟨items, heq, rfl⟩ := Instruction.effect_makeArray he
    refine ⟨_, rfl, fun k hk => Option.some.inj hk ▸ ?_⟩
    exact Value.conforms_array_iff.2 ⟨_, _, rfl, hitems items heq⟩

/-- A scalar is of the kind that it is loaded with. -/
theorem literal_typed {v : Value} (hv : v.isScalar = true) (ht : Typed strict scope s) :
    checks code (into (.load v) (some v.kind)) (Kept strict) scope s := by
  refine into_typed ht (fun hi => trusting_of_ne hi (by simp)) (fun _ _ => rfl) fun effect he => ?_
  obtain rfl := Except.ok.inj he
  refine ⟨v, rfl, fun k hk => Option.some.inj hk ▸ ?_⟩
  exact (Value.conforms_kind_of_isScalar hv).1

theorem ident_typed (name : String) (ht : Typed strict scope s) :
    checks code (Emit.find? name >>= readName name) (Kept strict) scope s := by
  refine wp_bind (wp_find? ?_)
  cases hb : scope.find? name with
  | none => exact wp_fail
  | some b => exact wp_pure ⟨ht, ht.wf.lt hb, Or.inl ⟨name, b, hb, rfl⟩⟩

/-- The length of a container is a number; of what `print` yields nothing is known. -/
theorem call_typed (name : String) (args : List Expr) {os : List Operand}
    (ht : Typed strict scope s) :
    checks code (finish (.call name args) os) (Kept strict) scope s := by
  simp only [finish]
  split
  · refine wp_bind (wp_print (fun hi => trusting_of_ne hi (by simp)) (fun _ _ => rfl) rfl
      fun values sink _ _ => ?_)
    refine wp_bind
      (wp_fresh (wp_pure ⟨(Variables.fresh ht).of_registers_eq rfl, Nat.lt_succ_self _, Or.inr ?_⟩))
    intro k hk
    cases hk
  · split
    · refine wp_bind (wp_checkContainer (into_typed ht (fun hi => trusting_of_ne hi (by simp))
        (fun _ _ => rfl) fun effect he => ?_))
      obtain ⟨_, _, _, _, rfl⟩ := Instruction.effect_len he
      exact ⟨_, rfl, fun k hk => Option.some.inj hk ▸ rfl⟩
    · exact wp_fail

/-- A relation yields a truth value, whatever is compared. -/
theorem relation_typed (op : Relation) {l r : Operand} (ht : Typed strict scope s) :
    checks code (into (.relate op l.register r.register) (some .bool)) (Kept strict) scope s := by
  refine into_typed ht (fun hi => trusting_of_ne hi (by simp)) (fun _ _ => rfl) fun effect he => ?_
  obtain ⟨_, _, _, _, _, _, rfl⟩ := Instruction.effect_relate he
  exact ⟨_, rfl, fun k hk => Option.some.inj hk ▸ rfl⟩

/-- What was stored is as trustworthy behind the store. -/
theorem stored_typed {target : Expr} {v : Operand} (hwf : scope.WF) (hv : Trusted strict scope s v)
    (hstore : checks code (store target v) (fun _ => Typed strict) scope s) :
    checks code (store target v >>= fun _ => pure v) (Kept strict) scope s := by
  refine wp_bind (wp_mono (store_ran hwf hstore) ?_)
  rintro _ after t _ ⟨ht, hran⟩
  exact wp_pure ⟨ht, hv.ran hran⟩

/-- Operators. Where hints are relied on they are right, and behind `and` and `or` they join. -/
theorem binary_typed {left right : Expr} {op : BinaryOp} {n : Nat} {base : Scope}
    {os : List Operand} (hsteady : Steady strict p) (hleft : TypedAt strict p left)
    (hright : TypedAt strict p right) (hsite : Site p (.value (.binary left op right)) n base)
    (hyields : (exprs (Expr.binary left op right).operands).Yields n base os s.next scope)
    (ht : Typed strict scope s) (hos : ∀ o ∈ os, Trusted strict scope s o)
    (hsound : (Expr.binary left op right).reliesOnHints = true → ∀ o ∈ os, Sound strict s o) :
    checks code (finish (.binary left op right) os) (Kept strict) scope s := by
  cases op with
  | arith op =>
    obtain ⟨l, r, _, _, rfl, _, _⟩ := yields_of_exprs_two hyields
    refine wp_mono (arith_typed ht (hsound rfl l List.mem_cons_self) (hsound rfl r (by simp))) ?_
    exact fun _ _ _ _ h => h.1
  | relation op =>
    obtain ⟨l, r, _, _, rfl, _, _⟩ := yields_of_exprs_two hyields
    exact relation_typed op ht
  | and =>
    obtain ⟨l, rfl, hl⟩ := exists_of_exprs_one hyields
    refine connect_typed branches_jumpUnless (by simp) (fun _ _ _ => rfl) hright
      (.right hsite (Or.inl rfl) hl) (fun r stop after hr => ?_) ht
      (hsound rfl l List.mem_cons_self)
    exact hsteady.joins hsite (Or.inl rfl) hl hr
  | or =>
    obtain ⟨l, rfl, hl⟩ := exists_of_exprs_one hyields
    refine connect_typed branches_jumpIf (by simp) (fun _ _ _ => rfl) hright
      (.right hsite (Or.inr rfl) hl) (fun r stop after hr => ?_) ht
      (hsound rfl l List.mem_cons_self)
    exact hsteady.joins hsite (Or.inr rfl) hl hr
  | assign =>
    obtain ⟨v, rfl, hvalue⟩ := exists_of_exprs_one hyields
    have hv := hos v List.mem_cons_self
    exact stored_typed ht.wf hv
      (hleft.store (.assign hsite hvalue) ht hv (hsound rfl v List.mem_cons_self))
  | update op =>
    obtain ⟨l, r, m, mid, rfl, hl, hr⟩ := yields_of_exprs_two hyields
    refine wp_bind
      (wp_mono (arith_typed ht (hsound rfl l List.mem_cons_self) (hsound rfl r (by simp))) ?_)
    rintro v after t hv ⟨⟨ht₁, hv₁⟩, hs₁⟩
    exact stored_typed ht₁.wf hv₁ (hleft.store (.update hsite (hl.bind (hr.bind hv))) ht₁ hv₁ hs₁)

/-- What an expression does with its operands. -/
theorem finish_typed {e : Expr} {n : Nat} {base : Scope} {os : List Operand}
    (hsteady : Steady strict p) (hscalar : e.ScalarLiterals)
    (hparts : ∀ left op right, e = .binary left op right →
      TypedAt strict p left ∧ TypedAt strict p right) (hsite : Site p (.value e) n base)
    (hyields : (exprs e.operands).Yields n base os s.next scope) (ht : Typed strict scope s)
    (hos : ∀ o ∈ os, Trusted strict scope s o) :
    checks code (finish e os) (Kept strict) scope s := by
  -- Where hints are relied on, none of them is out of date.
  have hsound : e.reliesOnHints = true → ∀ o ∈ os, Sound strict s o := by
    intro he o ho
    exact (hos o ho).sound_of_fresh ht (hsteady.uses hsite he hyields o ho)
  cases e with
  | literal v => exact literal_typed (hscalar.self v rfl) ht
  | ident name => exact ident_typed name ht
  | group inner =>
    obtain ⟨o, rfl, _⟩ := exists_of_exprs_one hyields
    exact wp_pure ⟨ht, hos o List.mem_cons_self⟩
  | array items => exact array_typed ht (hsound rfl)
  | map entries => exact map_typed ht fun o ho => ⟨(hos o ho).lt, hsound rfl o ho⟩
  | element base key =>
    obtain ⟨c, k, _, _, rfl, _, _⟩ := yields_of_exprs_two hyields
    exact get_typed ht (hsound rfl c List.mem_cons_self)
  | call name args => exact call_typed name args ht
  | unary op operand =>
    obtain ⟨o, rfl, _⟩ := exists_of_exprs_one hyields
    exact negation_typed ht
  | binary left op right =>
    obtain ⟨hleft, hright⟩ := hparts left op right rfl
    exact binary_typed hsteady hleft hright hsite hyields ht hos hsound

/-- Hints are right wherever lowering relies on them, if none of them is out of date there. -/
theorem expr_typed (hsteady : Steady strict p) (hp : ∀ st ∈ p, st.expr.ScalarLiterals) (e : Expr) :
    TypedAt strict p e := by
  induction e using Expr.inductOperands with
  | step e hops hparts =>
    refine ⟨fun {code scope s} hsite ht => ?_, fun {code scope s value} hsite ht hv hs => ?_⟩
    · have hnone : (exprs []).Yields s.next scope [] s.next scope := ⟨[], rfl, rfl⟩
      have hall : (Task.value e).operands = [] ++ (e.operands ++ []) := (List.append_nil _).symm
      refine wp_congr (fun a ha => expr_factors ha)
        (wp_bind (wp_mono (exprs_typed hsite hall hnone hops ht ?_) ?_))
      · intro o ho
        cases ho
      · rintro os after t _ ⟨hyields, ht', hos⟩
        exact finish_typed hsteady (hsite.all hp) hparts hsite hyields ht' hos
    · cases e with
      | ident name => exact assign_typed ht hs
      | element base key =>
        exact store_element_typed hsteady (hops base (by simp [Expr.operands]))
          (hops key (by simp [Expr.operands])) hsite ht hv
      | _ => exact wp_fail

/-- Hints are right behind every statement. -/
theorem statements_typed (hsteady : Steady strict p) (hp : ∀ st ∈ p, st.expr.ScalarLiterals)
    {earlier later : Program} {all : Emitted Unit} (hsplit : p = earlier ++ later)
    (hall : statements 0 .empty earlier = .ok all) (hplaced : Placed code 0 all.code)
    (hs : s.next = 0) (ht : Typed strict .empty s) :
    Leads code (fun u => u.next < all.code.length ∧ Trusting code u)
      (fun i fault => fault.refutesHint i = false)
      (fun t => t.next = all.code.length ∧ Typed strict all.scope t) s := by
  refine statements_sites (K := fun _ => Typed strict) (fun st rest scope s hsite ht => ?_) hsplit
    hall hplaced hs ht
  exact wp_mono ((expr_typed hsteady hp st.expr).expr hsite ht) fun _ _ _ _ h => h.1

/-! ## Programs that assign at the roots of statements -/

/-- The operand is the binding of a variable, or belongs to none. -/
def Current (scope : Scope) (o : Operand) : Prop :=
  (∃ x, scope.find? x = some o) ∨ ∀ x b, scope.find? x = some b → b.register ≠ o.register

theorem Current.fresh (h : Current scope o) (hwf : scope.WF) : Fresh scope o := by
  intro x b hb hr k hk
  rcases h with ⟨y, hy⟩ | hne
  · obtain rfl := hwf.apart hb hy hr
    obtain rfl : b = o := Option.some.inj (hb.symm.trans hy)
    exact hk
  · exact absurd hr (hne x b hb)

theorem Current.since (h : Current scope o) (hs : Scope.Since (fun _ => False) scope after) :
    Current after o := by
  rcases h with ⟨x, hx⟩ | hne
  · exact Or.inl ⟨x, (hs.same id).trans hx⟩
  · exact Or.inr fun x b hb => hne x b (hs.same id ▸ hb)

theorem current_of_resides {base : Scope} (h : Resides base none o scope) : Current scope o :=
  Or.inr (h.unnamed rfl).2

/-- An expression that is a variable yields its binding. -/
theorem find?_of_alias {e : Expr} (he : e.AssignmentFree) {n : Nat} {x : String}
    {a : Emitted Operand} (hx : e.alias? = some x) (h : Lowering.expr e n scope = .ok a) :
    a.scope.find? x = some a.value := by
  induction e using Expr.induct with
  | ident name =>
    obtain rfl : name = x := Option.some.inj hx
    rw [Lowering.expr] at h
    obtain ⟨b, c, hfind, hc, rfl⟩ := bind_eq_ok h
    obtain rfl := Except.ok.inj hfind
    cases hb : scope.find? name with
    | none =>
      rw [hb] at hc
      cases hc
    | some bound =>
      rw [hb] at hc
      obtain rfl := Except.ok.inj hc
      exact hb
  | group inner ih =>
    rw [Lowering.expr] at h
    exact ih (Expr.all_group_iff.1 he).2 hx h
  | binary left op right _ _ =>
    cases op with
    | assign => cases he.self
    | _ => cases hx
  | _ => cases hx

theorem current_of_assignmentFree {e : Expr} (he : e.AssignmentFree) (hwf : scope.WF) {n stop : Nat}
    (h : (Lowering.expr e).Yields n scope o stop after) : Current after o := by
  obtain ⟨_, hres⟩ := expr_since (A := fun _ => False) he.assignsOnly hwf h
  obtain ⟨piece, hpiece, _⟩ := h
  -- Either the expression is a variable, or its register was issued for it.
  cases halias : e.alias? with
  | none => exact Or.inr (hres.unnamed halias).2
  | some x => exact Or.inl ⟨x, find?_of_alias he halias hpiece⟩

theorem exprs_current {es : List Expr} (hes : ∀ e ∈ es, e.AssignmentFree) (hwf : scope.WF)
    {n stop : Nat} {os : List Operand} (h : (exprs es).Yields n scope os stop after) :
    ∀ o ∈ os, Current after o := by
  -- On the list. No later operand assigns, so what is a binding stays one.
  induction es generalizing n scope os stop with
  | nil =>
    obtain ⟨piece, hpiece, _⟩ := h
    cases hpiece
    exact fun o ho => absurd ho List.not_mem_nil
  | cons e es ih =>
    rw [exprs] at h
    obtain ⟨o, m, mid, ho, h⟩ := yields_bind h
    obtain ⟨os', m', mid', hos, hpure⟩ := yields_bind h
    obtain ⟨_, hpure, _⟩ := hpure
    cases hpure
    have hsince :=
      (expr_since (A := fun _ => False) (hes e List.mem_cons_self).assignsOnly hwf ho).1
    have hrest : ∀ e ∈ es, e.AssignmentFree := fun e he => hes e (List.mem_cons_of_mem _ he)
    intro q hq
    rcases List.mem_cons.1 hq with rfl | hq
    · have hlater :=
        exprs_since (A := fun _ => False) (fun e he => (hrest e he).assignsOnly) hsince.wf hos
      exact (current_of_assignmentFree (hes e List.mem_cons_self) hwf ho).since hlater
    · exact ih hrest hsince.wf hos q hq

/-- The value of a store is up to date when the store begins. -/
theorem Site.current {target : Expr} {value : Operand} {n : Nat}
    (hp : ∀ st ∈ p, st.expr.AssignsAtRoot) (h : Site p (.store target value) n scope) :
    Current scope value := by
  cases h with
  | assign h hv =>
    have hfree := assignmentFree_of_mem_operands (h.assignsAtRoot hp) (List.mem_singleton.2 rfl)
    exact current_of_assignmentFree hfree h.wf hv
  | @update _ right _ _ _ _ _ _ h hv =>
    obtain ⟨x, m, mid, hx, hv⟩ := yields_bind hv
    obtain ⟨y, m', mid', hy, hv⟩ := yields_bind hv
    have hmid := (expr_since target.assignsOnly_true h.wf hx).1.wf
    have hmid' := (expr_since right.assignsOnly_true hmid hy).1.wf
    exact current_of_resides (arith_since (A := fun _ => True) hmid' hv).2
  | @back base key outer _ _ _ _ _ _ h hc =>
    obtain ⟨x, m, mid, hx, hc⟩ := yields_bind hc
    obtain ⟨y, m', mid', hy, hc⟩ := yields_bind hc
    obtain ⟨hsince, hres⟩ := expr_since (Expr.element base key).assignsOnly_true h.wf hx
    have hlater := (hres.since (expr_since outer.assignsOnly_true hsince.wf hy).1).unnamed rfl
    obtain ⟨rfl, hreg⟩ := scope_of_put hc
    exact Or.inr fun z b hb => hreg ▸ hlater.2 z b hb

/-- Where no operand assigns, no hint goes out of date. -/
theorem steady_of_assignsAtRoot (hp : ∀ st ∈ p, st.expr.AssignsAtRoot) : Steady strict p where
  uses hsite _ hyields o ho := by
    have hfree := fun x hx => assignmentFree_of_mem_operands (hsite.assignsAtRoot hp) (x := x) hx
    have hafter :=
      (exprs_since (A := fun _ => False) (fun x hx => (hfree x hx).assignsOnly) hsite.wf hyields).wf
    exact (exprs_current hfree hsite.wf hyields o ho).fresh hafter
  stores hsite hyields := by
    have hfree := fun x hx => assignmentFree_of_mem_operands (hsite.assignsAtRoot hp) (x := x) hx
    have hsince :=
      exprs_since (A := fun _ => False) (fun x hx => (hfree x hx).assignsOnly) hsite.wf hyields
    refine ⟨(exprs_current hfree hsite.wf hyields _ List.mem_cons_self).fresh hsince.wf, ?_⟩
    exact ((hsite.current hp).since hsince).fresh hsince.wf
  joins {left op right n scope l r stop mid stop' after} hsite hop hl hr := by
    have hparts : left.AssignmentFree ∧ right.AssignmentFree :=
      Expr.forall_two_iff.1 (hsite.assignsAtRoot hp)
    have hmid := (expr_since left.assignsOnly_true hsite.wf hl).1.wf
    have hmid' := (Scope.Since.fresh (A := fun _ => False) hmid).wf
    have hsince := (expr_since (A := fun _ => False) hparts.2.assignsOnly hmid' hr).1
    refine ⟨fun x c k hc hk => Or.inl ⟨c, ?_, hk⟩, ?_⟩
    · exact (hsince.same id).symm.trans hc
    · exact (current_of_assignmentFree hparts.2 hmid' hr).fresh hsince.wf

end Lowering

end LineScript
