import LineScript.Proofs.Code.Logic
import LineScript.Proofs.Expr.Nodes

/-!
# How code and scope grow

What can be said about emitted code without running it. A piece only ever extends the scope:
registers are issued upwards, a variable keeps its register, and only variables that the piece
assigns change at all (`Scope.Since`). Its instructions write registers issued since and registers
of variables that it assigns (`Scope.Owns`), and its jumps lead forward and not past its end.
`Lowering.expr_grows` and `Lowering.statements_grown` say so of every expression and every program.

The result of an expression lies in the register of a variable only if the expression is that
variable (`Resides`).
-/

set_option autoImplicit false

namespace LineScript

/-! ## What there is code for -/

namespace Lowering

open Emit

/-- The calls there are: of `print`, and of `len` with one argument. -/
theorem call_cases (name : String) (args : List Expr) :
    (name = "print" ∧ expr (.call name args) = do
      let arguments ← exprs args
      Emit.instruction (.print (arguments.map Operand.register))
      let result ← Emit.fresh
      pure ⟨result, none⟩) ∨
    (∃ arg, name = "len" ∧ args = [arg] ∧ expr (.call name args) = do
      let operand ← expr arg
      checkContainer operand
      into (.len operand.register) (some .number)) ∨
    ∃ e, expr (.call name args) = Emit.fail e := by
  by_cases hp : name = "print"
  · left
    refine ⟨hp, ?_⟩
    rcases args with _ | ⟨arg, _ | _⟩ <;> simp [expr, hp]
  · right
    by_cases hl : name = "len"
    · subst hl
      rcases args with _ | ⟨arg, _ | ⟨_, _⟩⟩
      · exact Or.inr ⟨_, by simp [expr]; rfl⟩
      · exact Or.inl ⟨arg, rfl, rfl, by simp [expr]⟩
      · exact Or.inr ⟨_, by simp [expr]; rfl⟩
    · refine Or.inr ⟨.unknownFunction name, ?_⟩
      rcases args with _ | ⟨arg, _ | _⟩ <;> simp [expr, hp, hl]

/-- Only an element of a variable or of an element can be stored into. -/
theorem target_of_store {target key : Expr} {value : Operand} {a : Emitted Unit}
    {start : Nat} {scope : Scope} (h : store (.element target key) value start scope = .ok a) :
    (∃ name, target = .ident name) ∨ ∃ inner innerKey, target = .element inner innerKey := by
  rw [store] at h
  obtain ⟨_, _, _, h, _⟩ := bind_eq_ok h
  obtain ⟨_, _, _, h, _⟩ := bind_eq_ok h
  obtain ⟨_, _, _, h, _⟩ := bind_eq_ok h
  cases target with
  | ident name => exact Or.inl ⟨name, rfl⟩
  | element inner innerKey => exact Or.inr ⟨inner, innerKey, rfl⟩
  | _ =>
    rw [store] at h
    · cases h
    all_goals simp

end Lowering

/-! ## Scopes -/

namespace Scope

theorem find?_bind (scope : Scope) (name other : String) (operand : Operand) :
    (scope.bind name operand).find? other =
      if other = name then some operand else scope.find? other := rfl

/-- The registers of variables are issued, and no two variables share one. -/
structure WF (scope : Scope) : Prop where
  lt : ∀ {x b}, scope.find? x = some b → b.register < scope.registers
  apart :
      ∀ {x y b c}, scope.find? x = some b → scope.find? y = some c → b.register = c.register → x = y

theorem empty_wf : empty.WF where
  lt h := nomatch h
  apart h := nomatch h

/-- `after` came out of `base`, and of the variables only those in `A` were assigned. -/
structure Since (A : String → Prop) (base after : Scope) : Prop where
  wf : after.WF
  le : base.registers ≤ after.registers
  keeps : ∀ {x b}, base.find? x = some b → ∃ c, after.find? x = some c ∧ c.register = b.register
  same : ∀ {x}, ¬ A x → after.find? x = base.find? x
  issued : ∀ {x b}, base.find? x = none → after.find? x = some b → base.registers ≤ b.register

/-- A register that code which came after `base` may write: one issued since, or that of a variable
in `A`. -/
def Owns (A : String → Prop) (base : Scope) (r : Register) : Prop :=
  base.registers ≤ r ∨ ∃ x b, A x ∧ base.find? x = some b ∧ b.register = r

variable {A : String → Prop} {base scope after : Scope}

theorem Since.refl (h : scope.WF) : Since A scope scope :=
  ⟨h, Nat.le_refl _, fun hb => ⟨_, hb, rfl⟩, fun _ => rfl, fun hn hb => by rw [hn] at hb; cases hb⟩

/-- Growing twice is growing, which is what puts pieces one behind the other. -/
theorem Since.trans (h : Since A base scope) (g : Since A scope after) : Since A base after where
  wf := g.wf
  le := Nat.le_trans h.le g.le
  keeps hb := by
    obtain ⟨c, hc, hcb⟩ := h.keeps hb
    obtain ⟨d, hd, hdc⟩ := g.keeps hc
    exact ⟨d, hd, hdc.trans hcb⟩
  same hx := (g.same hx).trans (h.same hx)
  issued {x b} hn hb := by
    cases hs : scope.find? x with
    | none => exact Nat.le_trans h.le (g.issued hs hb)
    | some c =>
      obtain ⟨d, hd, hdc⟩ := g.keeps hs
      obtain rfl : d = b := Option.some.inj (hd.symm.trans hb)
      rw [hdc]
      exact h.issued hn hs

/-- A new register belongs to no variable yet. -/
theorem Since.fresh (h : scope.WF) :
    Since A scope { scope with registers := scope.registers + 1 } where
  wf := ⟨fun hb => Nat.lt_succ_of_lt (h.lt hb), h.apart⟩
  le := Nat.le_succ _
  keeps hb := ⟨_, hb, rfl⟩
  same _ := rfl
  issued {x b} hn hb := by
    change scope.find? x = some b at hb
    rw [hn] at hb
    cases hb

/-- A variable is given another kind; its register stays. -/
theorem Since.rebind {x : String} {b operand : Operand} (h : scope.WF) (hA : A x)
    (hb : scope.find? x = some b) (hr : operand.register = b.register) :
    Since A scope (scope.bind x operand) where
  wf := by
    -- Whatever has a register afterwards has had it before.
    have hreg : ∀ {y c}, (scope.bind x operand).find? y = some c →
        ∃ d, scope.find? y = some d ∧ d.register = c.register := by
      intro y c hy
      rw [find?_bind] at hy
      split at hy
      · rename_i hyx
        cases hy
        exact ⟨b, hyx ▸ hb, hr.symm⟩
      · exact ⟨c, hy, rfl⟩
    constructor
    · intro y c hy
      obtain ⟨d, hd, hdc⟩ := hreg hy
      exact hdc ▸ h.lt hd
    · intro y z c d hy hz hcd
      obtain ⟨c', hc', hcc⟩ := hreg hy
      obtain ⟨d', hd', hdd⟩ := hreg hz
      exact h.apart hc' hd' (by rw [hcc, hdd, hcd])
  le := Nat.le_refl _
  keeps {y c} hy := by
    rw [find?_bind]
    split
    · rename_i hyx
      obtain rfl : b = c := Option.some.inj (hb.symm.trans (hyx ▸ hy))
      exact ⟨operand, rfl, hr⟩
    · exact ⟨c, hy, rfl⟩
  same {y} hy := by
    rw [find?_bind, if_neg]
    rintro rfl
    exact hy hA
  issued {y c} hn hy := by
    rw [find?_bind] at hy
    split at hy
    · rename_i hyx
      rw [hyx, hb] at hn
      cases hn
    · rw [hn] at hy
      cases hy

/-- A variable is bound for the first time, to the register issued last. -/
theorem Since.bindNew {x : String} {kind : Option Kind} (h : scope.WF) (hA : A x)
    (hn : scope.find? x = none) :
    Since A scope
      (Scope.bind { scope with registers := scope.registers + 1 } x ⟨scope.registers, kind⟩) where
  wf := by
    have hreg : ∀ {y c}, (Scope.bind { scope with registers := scope.registers + 1 } x
        ⟨scope.registers, kind⟩).find? y = some c → y = x ∧ c.register = scope.registers ∨
        scope.find? y = some c ∧ c.register < scope.registers := by
      intro y c hy
      rw [find?_bind] at hy
      split at hy
      · rename_i hyx
        cases hy
        exact Or.inl ⟨hyx, rfl⟩
      · exact Or.inr ⟨hy, h.lt hy⟩
    constructor
    · intro y c hy
      rcases hreg hy with ⟨_, hc⟩ | ⟨_, hc⟩
      · exact hc ▸ Nat.lt_succ_self _
      · exact Nat.lt_succ_of_lt hc
    · intro y z c d hy hz hcd
      rcases hreg hy with ⟨rfl, hc⟩ | ⟨hy, hc⟩
      · rcases hreg hz with ⟨rfl, _⟩ | ⟨_, hd⟩
        · rfl
        · exact absurd (hcd.symm.trans hc) (Nat.ne_of_lt hd)
      · rcases hreg hz with ⟨_, hd⟩ | ⟨hz, _⟩
        · exact absurd (hcd.trans hd) (Nat.ne_of_lt hc)
        · exact h.apart hy hz hcd
  le := Nat.le_succ _
  keeps {y c} hy := by
    rw [find?_bind, if_neg]
    · exact ⟨c, hy, rfl⟩
    · rintro rfl
      rw [hn] at hy
      cases hy
  same {y} hy := by
    rw [find?_bind, if_neg]
    · rfl
    · rintro rfl
      exact hy hA
  issued {y c} hny hy := by
    rw [find?_bind] at hy
    split at hy
    · cases hy
      exact Nat.le_refl _
    · change scope.find? y = some c at hy
      rw [hny] at hy
      cases hy

/-- The register of an assigned variable may be written. -/
theorem Since.owns {x : String} {b : Operand} (h : Since A base scope) (hA : A x)
    (hb : scope.find? x = some b) : Owns A base b.register := by
  cases hx : base.find? x with
  | none => exact Or.inl (h.issued hx hb)
  | some c =>
    obtain ⟨d, hd, hdc⟩ := h.keeps hx
    obtain rfl : d = b := Option.some.inj (hd.symm.trans hb)
    exact Or.inr ⟨x, c, hA, hx, hdc.symm⟩

/-- What may be written from a later scope on may be written from an earlier one on. -/
theorem Owns.since {r : Register} (h : after.Owns A r) (hs : Since A base after) :
    base.Owns A r := by
  rcases h with hle | ⟨x, b, hA, hb, rfl⟩
  · exact Or.inl (Nat.le_trans hs.le hle)
  · exact hs.owns hA hb

theorem Owns.mono {B : String → Prop} {r : Register} (h : base.Owns A r)
    (hAB : ∀ x, A x → B x) : base.Owns B r :=
  h.imp_right fun ⟨x, b, hA, hb, hr⟩ => ⟨x, b, hAB x hA, hb, hr⟩

theorem Since.mono {B : String → Prop} (h : Since A base after) (hAB : ∀ x, A x → B x) :
    Since B base after :=
  ⟨h.wf, h.le, h.keeps, fun hx => h.same fun hA => hx (hAB _ hA), h.issued⟩

end Scope

/-! ## Pieces -/

/-- The result of an expression is an issued register: that of the variable which the expression is,
or one issued for the expression, which belongs to no variable. -/
structure Resides (base : Scope) (own : Option String) (operand : Operand)
    (scope : Scope) : Prop where
  lt : operand.register < scope.registers
  named : ∀ {x}, own = some x → ∃ b, scope.find? x = some b ∧ b.register = operand.register
  unnamed :
      own = none →
        base.registers ≤ operand.register ∧
        ∀ x b, scope.find? x = some b → b.register ≠ operand.register

/-- A register issued for the expression. -/
theorem Resides.temporary {base scope : Scope} {operand : Operand}
    (hlt : operand.register < scope.registers) (hle : base.registers ≤ operand.register)
    (hne : ∀ x b, scope.find? x = some b → b.register ≠ operand.register) :
    Resides base none operand scope :=
  ⟨hlt, fun h => (nomatch h), fun _ => ⟨hle, hne⟩⟩

/-- The register issued last. -/
theorem Resides.issued {A : String → Prop} {base scope : Scope} {kind : Option Kind}
    (h : Scope.Since A base scope) :
    Resides base none ⟨scope.registers, kind⟩ { scope with registers := scope.registers + 1 } :=
  .temporary (Nat.lt_succ_self _) h.le fun x _ hb => Nat.ne_of_lt (h.wf.lt (x := x) hb)

theorem Resides.since {A : String → Prop} {base scope after : Scope} {own : Option String}
    {operand : Operand} (h : Resides base own operand scope) (g : Scope.Since A scope after) :
    Resides base own operand after := by
  refine ⟨Nat.lt_of_lt_of_le h.lt g.le, ?_, ?_⟩
  · intro x hx
    obtain ⟨b, hb, hr⟩ := h.named hx
    obtain ⟨c, hc, hcb⟩ := g.keeps hb
    exact ⟨c, hc, hcb.trans hr⟩
  · intro hown
    obtain ⟨hle, hne⟩ := h.unnamed hown
    refine ⟨hle, fun x b hb => ?_⟩
    -- A variable that is new has a register issued later; another one keeps its own.
    cases hx : scope.find? x with
    | none =>
      exact Nat.ne_of_gt (Nat.lt_of_lt_of_le h.lt (g.issued hx hb))
    | some c =>
      obtain ⟨d, hd, hdc⟩ := g.keeps hx
      obtain rfl : d = b := Option.some.inj (hd.symm.trans hb)
      rw [hdc]
      exact hne x c hx

/-- The register of a result belongs to the variable that the expression is, and to no other. -/
theorem Resides.not_owns {A : String → Prop} {base scope : Scope} {own : Option String}
    {operand : Operand} (h : Resides base own operand scope) (hwf : scope.WF)
    (hA : ∀ x, own = some x → ¬ A x) : ¬ scope.Owns A operand.register := by
  rintro (hle | ⟨y, b, hy, hb, hreg⟩)
  · exact absurd h.lt (Nat.not_lt.2 hle)
  · cases hown : own with
    | none => exact (h.unnamed hown).2 y b hb hreg
    | some x =>
      obtain ⟨c, hc, hcreg⟩ := h.named hown
      exact hA x hown (hwf.apart hb hc (hreg.trans hcreg.symm) ▸ hy)

/-- What a piece adds to a scope that came out of `base`. -/
structure Grown {α : Type} (A : String → Prop) (base : Scope) (start : Nat) (scope : Scope)
    (a : Emitted α) : Prop where
  since : Scope.Since A scope a.scope
  dests : ∀ i ∈ a.code, ∀ r, i.dest? = some r → r < a.scope.registers ∧ base.Owns A r
  jumps :
      ∀ k i t, a.code[k]? = some i → i.target? = some t → start + k < t ∧ t ≤ start + a.code.length

/-- Two pieces one behind the other. -/
theorem Grown.append {α β : Type} {A : String → Prop} {base scope : Scope} {start : Nat}
    {a : Emitted α} {b : Emitted β} (ha : Grown A base start scope a)
    (hb : Grown A base (start + a.code.length) a.scope b) :
    Grown A base start scope ⟨b.value, a.code ++ b.code, b.scope⟩ := by
  refine ⟨ha.since.trans hb.since, ?_, ?_⟩
  · intro i hi r hr
    rcases List.mem_append.1 hi with hi | hi
    · obtain ⟨hlt, howns⟩ := ha.dests i hi r hr
      exact ⟨Nat.lt_of_lt_of_le hlt hb.since.le, howns⟩
    · exact hb.dests i hi r hr
  · intro k i t hi ht
    -- A jump of the second piece is counted from the end of the first.
    rw [List.length_append]
    by_cases hlt : k < a.code.length
    · rw [List.getElem?_append_left hlt] at hi
      have hj := ha.jumps k i t hi ht
      omega
    · rw [List.getElem?_append_right (Nat.le_of_not_lt hlt)] at hi
      have hj := hb.jumps _ i t hi ht
      omega

namespace Emit

variable {α β : Type} {A : String → Prop} {base scope : Scope} {start : Nat}

/-- The piece grows out of `base` as it should, and `Q` holds of its value and the scope it
leaves. -/
def grows (A : String → Prop) (base : Scope) (x : Emit α) (Q : α → Scope → Prop) (start : Nat)
    (scope : Scope) : Prop :=
  Scope.Since A base scope →
    ∀ a, x start scope = .ok a → Grown A base start scope a ∧ Q a.value a.scope

/-- What is known behind a piece may be weakened, with the growth of the scope at hand. -/
theorem grows_mono {x : Emit α} {Q R : α → Scope → Prop} (h : grows A base x Q start scope)
    (hQ : ∀ v after, Scope.Since A scope after → Q v after → R v after) :
    grows A base x R start scope := by
  intro hs a ha
  obtain ⟨hg, hQa⟩ := h hs a ha
  exact ⟨hg, hQ _ _ hg.since hQa⟩

/-- Two pieces one behind the other: the second starts where the first one stops. -/
theorem grows_bind {x : Emit α} {f : α → Emit β} {Q : β → Scope → Prop}
    (h : grows A base x (fun v after => ∀ stop, grows A base (f v) Q stop after) start scope) :
    grows A base (x >>= f) Q start scope := by
  intro hs c hc
  obtain ⟨a, b, ha, hb, rfl⟩ := bind_eq_ok hc
  obtain ⟨hg, hQa⟩ := h hs a ha
  obtain ⟨hk, hQb⟩ := hQa _ (hs.trans hg.since) b hb
  exact ⟨hg.append hk, hQb⟩

/-- A piece without instructions. -/
theorem grows_silent {x : Emit α} {v : α} {after : Scope} {Q : α → Scope → Prop}
    (hx : ∀ st, x st scope = .ok ⟨v, [], after⟩) (hs : scope.WF → Scope.Since A scope after)
    (h : Q v after) : grows A base x Q start scope := by
  intro hb a ha
  obtain rfl := Except.ok.inj ((hx start).symm.trans ha)
  refine ⟨⟨hs hb.wf, ?_, ?_⟩, h⟩
  · intro i hi
    cases hi
  · intro k i t hi
    cases hi

theorem grows_pure {v : α} {Q : α → Scope → Prop} (h : Q v scope) :
    grows A base (pure v) Q start scope :=
  grows_silent (fun _ => rfl) Scope.Since.refl h

theorem grows_fail {e : LoweringError} {Q : α → Scope → Prop} :
    grows A base (fail e) Q start scope := by
  intro _ a ha
  cases ha

theorem grows_fresh {Q : Register → Scope → Prop}
    (h : Q scope.registers { scope with registers := scope.registers + 1 }) :
    grows A base fresh Q start scope :=
  grows_silent (fun _ => rfl) Scope.Since.fresh h

theorem grows_find? {name : String} {Q : Option Operand → Scope → Prop}
    (h : Q (scope.find? name) scope) : grows A base (find? name) Q start scope :=
  grows_silent (fun _ => rfl) Scope.Since.refl h

/-- A variable that has a register already. -/
theorem grows_rebind {name : String} {b operand : Operand} {Q : Unit → Scope → Prop}
    (hA : A name) (hb : scope.find? name = some b) (hr : operand.register = b.register)
    (h : Q () (scope.bind name operand)) : grows A base (bindName name operand) Q start scope :=
  grows_silent (fun _ => rfl) (fun hs => Scope.Since.rebind hs hA hb hr) h

theorem grows_instruction {i : Instruction} {Q : Unit → Scope → Prop} (hi : i.target? = none)
    (hd : ∀ r, i.dest? = some r → r < scope.registers ∧ (Scope.Since A base scope → base.Owns A r))
    (h : Q () scope) : grows A base (instruction i) Q start scope := by
  intro hs a ha
  obtain rfl := Except.ok.inj ha
  refine ⟨⟨.refl hs.wf, ?_, ?_⟩, h⟩
  · intro j hj r hr
    obtain rfl := List.mem_singleton.1 hj
    exact ⟨(hd r hr).1, (hd r hr).2 hs⟩
  · intro k j t hj ht
    obtain rfl := List.mem_singleton.1 (List.mem_of_getElem? hj)
    rw [hi] at ht
    cases ht

theorem grows_skippedBy {jump : Nat → Instruction} {body : Emit α} {Q : α → Scope → Prop}
    (hj : ∀ t, (jump t).dest? = none ∧ (jump t).target? = some t)
    (h : grows A base body Q (start + 1) scope) :
    grows A base (skippedBy jump body) Q start scope := by
  intro hs c hc
  unfold skippedBy at hc
  split at hc
  · cases hc
  · rename_i b hb
    obtain rfl := Except.ok.inj hc
    obtain ⟨hg, hQ⟩ := h hs b hb
    refine ⟨⟨hg.since, ?_, ?_⟩, hQ⟩
    · intro i hi r hr
      rcases List.mem_cons.1 hi with rfl | hi
      · rw [(hj _).1] at hr
        cases hr
      · exact hg.dests i hi r hr
    · intro k i t hi ht
      simp only [List.length_cons]
      cases k with
      | zero =>
        obtain rfl := Option.some.inj hi
        rw [(hj _).2] at ht
        obtain rfl := Option.some.inj ht
        omega
      | succ k =>
        have hinner := hg.jumps k i t hi ht
        omega

end Emit

/-! ## Single instructions -/

/-- The targets of all assignments in the expression have their roots in `A`. -/
def Expr.AssignsOnly (A : String → Prop) (e : Expr) : Prop :=
  e.All fun n => ∀ target op value, n = .binary target op value → op.isAssignment = true →
    ∀ x, target.root? = some x → A x

theorem Expr.assignsOnly_true (e : Expr) : e.AssignsOnly fun _ => True :=
  fun _ _ _ _ _ _ _ _ _ => trivial

theorem Expr.AssignmentFree.assignsOnly {A : String → Prop} {e : Expr} (h : e.AssignmentFree) :
    e.AssignsOnly A := by
  rintro n hn target op value rfl hop x _
  have hfree := h _ hn
  simp only [Expr.isAssignment] at hfree
  rw [hop] at hfree
  cases hfree

namespace Lowering

open Emit

variable {A : String → Prop} {base scope : Scope} {start : Nat}

/-- What is needed of the scope may be used. -/
theorem grows_of {α : Type} {x : Emit α} {Q : α → Scope → Prop}
    (h : Scope.Since A base scope → grows A base x Q start scope) : grows A base x Q start scope :=
  fun hs => h hs hs

theorem into_grows {i : Register → Instruction} {kind : Option Kind}
    (hi : ∀ r, (i r).target? = none ∧ (i r).dest? = some r) :
    grows A base (into i kind) (Resides base none) start scope := by
  refine grows_of fun hs => ?_
  refine grows_bind (grows_fresh fun _ => ?_)
  refine grows_bind (grows_instruction (hi _).1 ?_ fun _ => ?_)
  · intro r hr
    obtain rfl : scope.registers = r := Option.some.inj ((hi _).2.symm.trans hr)
    exact ⟨Nat.lt_succ_self _, fun _ => Or.inl hs.le⟩
  · exact grows_pure (.issued hs)

theorem checkIndex_grows {index : Operand} :
    grows A base (checkIndex index) (fun _ after => after = scope) start scope := by
  unfold checkIndex
  split
  · exact grows_pure rfl
  · exact grows_pure rfl
  · exact grows_fail

theorem checkContainer_grows {operand : Operand} :
    grows A base (checkContainer operand) (fun _ after => after = scope) start scope := by
  unfold checkContainer
  split
  · exact grows_pure rfl
  · exact grows_pure rfl
  · exact grows_pure rfl
  · exact grows_fail

theorem arith_grows {op : Arith} {left right : Operand} :
    grows A base (arith op left right) (Resides base none) start scope := by
  unfold arith
  split
  · exact into_grows fun _ => ⟨rfl, rfl⟩
  · exact into_grows fun _ => ⟨rfl, rfl⟩
  · exact into_grows fun _ => ⟨rfl, rfl⟩

theorem negation_grows {op : UnaryOp} {operand : Operand} :
    grows A base (negation op operand) (Resides base none) start scope := by
  cases op with
  | not => exact into_grows fun _ => ⟨rfl, rfl⟩
  | negate => exact into_grows fun _ => ⟨rfl, rfl⟩

theorem get_grows {container key : Operand} :
    grows A base (get container key) (Resides base none) start scope := by
  unfold get
  split
  · refine grows_bind (grows_mono checkIndex_grows fun _ after _ hafter => ?_)
    exact hafter ▸ fun _ => into_grows fun _ => ⟨rfl, rfl⟩
  · exact into_grows fun _ => ⟨rfl, rfl⟩
  · exact into_grows fun _ => ⟨rfl, rfl⟩

/-- A container is updated in place. -/
theorem put_grows {container key value : Operand} (hlt : container.register < scope.registers)
    (howns : Scope.Since A base scope → base.Owns A container.register) :
    grows A base (put container key value)
      (fun o after => o.register = container.register ∧ after = scope) start scope := by
  -- Arrays and maps differ in the instruction only.
  have hset : ∀ {i : Instruction} {kind : Option Kind} (st : Nat), i.target? = none →
      i.dest? = some container.register →
      grows A base (do Emit.instruction i; pure (⟨container.register, kind⟩ : Operand))
        (fun o after => o.register = container.register ∧ after = scope) st scope := by
    intro i kind st htarget hdest
    refine grows_bind (grows_instruction htarget ?_ fun _ => grows_pure ⟨rfl, rfl⟩)
    intro r hr
    obtain rfl := Option.some.inj (hdest.symm.trans hr)
    exact ⟨hlt, howns⟩
  unfold put
  split
  · refine grows_bind (grows_mono checkIndex_grows fun _ after _ hafter st => ?_)
    rw [hafter]
    exact hset st rfl rfl
  · exact hset _ rfl rfl
  · exact hset _ rfl rfl

/-- Filling a map writes its own register over and over and issues none. -/
theorem putEntries_grows {map : Register} {pairs : List (Operand × Operand)}
    (hlt : map < scope.registers) (hle : base.registers ≤ map) :
    grows A base (putEntries map pairs) (fun _ after => after = scope) start scope := by
  induction pairs generalizing start with
  | nil => exact grows_pure rfl
  | cons pair rest ih =>
    refine grows_bind (grows_instruction rfl ?_ fun _ => ih)
    intro r hr
    exact Option.some.inj hr ▸ ⟨hlt, fun _ => Or.inl hle⟩

/-- A variable gets a register with its first assignment and keeps it. -/
theorem assign_grows {name : String} {value : Operand} (hA : A name) :
    grows A base (assign name value) (fun _ _ => True) start scope := by
  refine grows_of fun hs => ?_
  cases hb : scope.find? name with
  | none =>
    -- The register is issued and bound in one go: between the two steps the scope is no extension.
    intro _ a ha
    obtain ⟨b, c, hfind, hc, rfl⟩ := bind_eq_ok ha
    obtain rfl := Except.ok.inj hfind
    rw [hb] at hc
    obtain rfl := Except.ok.inj hc
    refine ⟨⟨Scope.Since.bindNew hs.wf hA hb, ?_, ?_⟩, trivial⟩
    · intro i hi r hr
      obtain rfl := List.mem_singleton.1 hi
      obtain rfl := Option.some.inj hr
      exact ⟨Nat.lt_succ_self _, Or.inl hs.le⟩
    · intro k i t hi ht
      obtain rfl := List.mem_singleton.1 (List.mem_of_getElem? hi)
      cases ht
  | some b =>
    have htarget : ∀ st, grows A base (target name value (some b))
        (fun r after => r = b.register ∧ after = scope) st scope := by
      intro st
      obtain ⟨register, kind⟩ := b
      cases kind with
      | none => exact grows_pure ⟨rfl, rfl⟩
      | some held =>
        simp only [target]
        split
        · exact grows_pure ⟨rfl, rfl⟩
        · split
          · exact grows_pure ⟨rfl, rfl⟩
          · exact grows_fail
    refine grows_bind (grows_find? fun _ => ?_)
    rw [hb]
    refine grows_bind (grows_mono (htarget _) ?_)
    rintro r after _ ⟨rfl, rfl⟩ _
    refine grows_bind (grows_instruction rfl ?_ fun _ => grows_rebind hA hb rfl trivial)
    intro r hr
    obtain rfl := Option.some.inj hr
    exact ⟨hs.wf.lt hb, fun hs => hs.owns hA hb⟩

/-! ## Expressions -/

/-- The code of an expression grows as it should, and so does the code that stores into it. -/
structure Grows (e : Expr) : Prop where
  expr : ∀ {A : String → Prop} {base scope : Scope} {start : Nat}, e.AssignsOnly A →
    grows A base (Lowering.expr e) (Resides base e.alias?) start scope
  store :
      ∀ {A : String → Prop} {base scope : Scope} {start : Nat} {value : Operand}, e.AssignsOnly A →
        (∀ x, e.root? = some x → A x) →
        grows A base (Lowering.store e value) (fun _ _ => True) start scope

theorem exprs_grows_of {es : List Expr} (h : ∀ e ∈ es, Grows e) (hA : ∀ e ∈ es, e.AssignsOnly A) :
    grows A base (exprs es) (fun os after => ∀ o ∈ os, o.register < after.registers)
      start scope := by
  induction es generalizing start scope with
  | nil => exact grows_pure fun o ho => nomatch ho
  | cons e rest ih =>
    rw [exprs]
    refine grows_bind (grows_mono ((h e List.mem_cons_self).expr (hA e List.mem_cons_self)) ?_)
    intro o mid _ ho _
    refine grows_bind (grows_mono (ih (fun e he => h e (List.mem_cons_of_mem _ he))
      fun e he => hA e (List.mem_cons_of_mem _ he)) ?_)
    intro os after hs hos _
    refine grows_pure fun q hq => ?_
    rcases List.mem_cons.1 hq with rfl | hq
    · exact Nat.lt_of_lt_of_le ho.lt hs.le
    · exact hos q hq

theorem entries_grows_of {ps : List (Expr × Expr)} (h : ∀ p ∈ ps, Grows p.1 ∧ Grows p.2)
    (hA : ∀ p ∈ ps, p.1.AssignsOnly A ∧ p.2.AssignsOnly A) :
    grows A base (entries ps) (fun os after => ∀ o ∈ os,
      o.1.register < after.registers ∧ o.2.register < after.registers) start scope := by
  induction ps generalizing start scope with
  | nil => exact grows_pure fun o ho => nomatch ho
  | cons p rest ih =>
    obtain ⟨key, value⟩ := p
    have hp := h _ List.mem_cons_self
    have hAp := hA _ List.mem_cons_self
    rw [entries]
    refine grows_bind (grows_mono (hp.1.expr hAp.1) ?_)
    intro k mid _ hk _
    refine grows_bind (grows_mono (hp.2.expr hAp.2) ?_)
    intro v mid' hs hv _
    refine grows_bind (grows_mono (ih (fun e he => h e (List.mem_cons_of_mem _ he))
      fun e he => hA e (List.mem_cons_of_mem _ he)) ?_)
    intro os after hs' hos _
    refine grows_pure fun q hq => ?_
    rcases List.mem_cons.1 hq with rfl | hq
    · exact ⟨Nat.lt_of_lt_of_le hk.lt (Nat.le_trans hs.le hs'.le), Nat.lt_of_lt_of_le hv.lt hs'.le⟩
    · exact hos q hq

/-- `and` and `or` differ in the jump only. -/
theorem connect_grows {left : Operand} {right : Expr} {jump : Register → Nat → Instruction}
    (hj : ∀ r t, (jump r t).dest? = none ∧ (jump r t).target? = some t) (hr : Grows right)
    (hA : right.AssignsOnly A) :
    grows A base (connect jump left (expr right)) (Resides base none) start scope := by
  refine grows_bind (grows_mono (into_grows fun _ => ⟨rfl, rfl⟩) ?_)
  intro result mid' _ hresult _
  -- The copy behind the right operand goes to the register of the result, issued before it.
  have hbody : ∀ st, grows A base (do
      let right ← expr right
      Emit.instruction (.copy right.register result.register)
      pure right) (fun _ after => Resides base none result after) st mid' := by
    intro st
    refine grows_bind (grows_mono (hr.expr hA) ?_)
    intro r after hs _ _
    have hresult' := hresult.since hs
    refine grows_bind (grows_instruction rfl ?_ fun _ => grows_pure hresult')
    intro q hq
    obtain rfl := Option.some.inj hq
    exact ⟨hresult'.lt, fun _ => Or.inl (hresult.unnamed rfl).1⟩
  refine grows_bind (grows_mono (grows_skippedBy (hj _) (hbody _)) ?_)
  intro r after _ hafter _
  exact grows_pure ⟨hafter.lt, hafter.named, hafter.unnamed⟩

/-- The right operand of `and` and `or` is the only part of what is jumped over that changes the
scope. -/
theorem yields_of_skipped {right : Expr} {result : Register} {o : Operand} {stop : Nat}
    {after : Scope} (h : Yields (do
      let right ← expr right
      Emit.instruction (.copy right.register result)
      pure right) start scope o stop after) : ∃ stop,
        (expr right).Yields start scope o stop after := by
  obtain ⟨piece, hpiece, _⟩ := h
  obtain ⟨a, b, ha, hb, heq⟩ := bind_eq_ok hpiece
  obtain ⟨c, d, hc, hd, rfl⟩ := bind_eq_ok hb
  obtain rfl := Except.ok.inj hc
  obtain rfl := Except.ok.inj hd
  cases heq
  exact ⟨_, a.code, ha, rfl⟩

theorem ident_grows {name : String} :
    grows A base (expr (.ident name)) (fun o after => scope.find? name = some o ∧ after = scope)
      start scope := by
  rw [expr]
  refine grows_bind (grows_find? fun _ => ?_)
  cases hb : scope.find? name with
  | none => exact grows_fail
  | some b => exact grows_pure ⟨rfl, rfl⟩

/-- The container in a target of an assignment is the variable at its root or a copy. -/
theorem store_element_grows {target key : Expr} {value : Operand} (ht : Grows target)
    (hk : Grows key) (hAt : target.AssignsOnly A) (hAk : key.AssignsOnly A)
    (hroot : ∀ x, target.root? = some x → A x) :
    grows A base (store (.element target key) value) (fun _ _ => True) start scope := by
  intro hbase a ha
  rcases target_of_store ha with ⟨name, rfl⟩ | ⟨inner, innerKey, rfl⟩
  · refine (?_ : grows A base _ (fun _ _ => True) start scope) hbase a ha
    -- The container is the variable, so its own register is written.
    rw [store]
    refine grows_bind (grows_mono ident_grows ?_)
    rintro container mid _ ⟨hc, rfl⟩ _
    refine grows_bind (grows_mono (hk.expr hAk) ?_)
    intro k after hs _ _
    obtain ⟨b, hb, hbr⟩ := hs.keeps hc
    have hA : A name := hroot name rfl
    refine grows_bind (grows_mono (put_grows (hbr ▸ hs.wf.lt hb) fun hs => hbr ▸ hs.owns hA hb) ?_)
    rintro o _ _ ⟨ho, rfl⟩ _
    exact grows_rebind hA hb (ho.trans hbr.symm) trivial
  · refine (?_ : grows A base _ (fun _ _ => True) start scope) hbase a ha
    -- The container is a copy in a register of its own, and is stored in its turn.
    rw [store]
    refine grows_bind (grows_mono (ht.expr hAt) ?_)
    intro container mid _ hc _
    refine grows_bind (grows_mono (hk.expr hAk) ?_)
    intro k after hs _ _
    refine grows_bind
      (grows_mono (put_grows (hc.since hs).lt fun _ => Or.inl (hc.unnamed rfl).1) ?_)
    rintro o _ _ ⟨_, rfl⟩ _
    exact ht.store hAt hroot

theorem map_grows {pairs : List (Expr × Expr)} (h : ∀ p ∈ pairs, Grows p.1 ∧ Grows p.2)
    (hA : ∀ p ∈ pairs, p.1.AssignsOnly A ∧ p.2.AssignsOnly A) :
    grows A base (expr (.map pairs)) (Resides base none) start scope := by
  rw [expr]
  refine grows_bind (grows_mono (entries_grows_of h hA) ?_)
  intro os mid _ _ _
  refine grows_bind (grows_mono (into_grows fun _ => ⟨rfl, rfl⟩) ?_)
  intro o after _ ho _
  refine grows_bind (grows_mono (putEntries_grows ho.lt (ho.unnamed rfl).1) ?_)
  rintro _ _ _ rfl _
  exact grows_pure ho

theorem call_grows {name : String} {args : List Expr} (h : ∀ e ∈ args, Grows e)
    (hA : ∀ e ∈ args, e.AssignsOnly A) :
    grows A base (expr (.call name args)) (Resides base none) start scope := by
  rcases call_cases name args with ⟨_, heq⟩ | ⟨arg, _, rfl, heq⟩ | ⟨e, heq⟩
  · rw [heq]
    refine grows_bind (grows_mono (exprs_grows_of h hA) ?_)
    intro os mid _ _ _
    refine grows_bind (grows_instruction rfl (fun r hr => nomatch hr) fun _ => ?_)
    exact grows_of fun hs => grows_bind (grows_fresh fun _ => grows_pure (.issued hs))
  · rw [heq]
    refine grows_bind (grows_mono ((h arg List.mem_cons_self).expr (hA arg List.mem_cons_self)) ?_)
    intro o mid _ _ _
    refine grows_bind (grows_mono checkContainer_grows ?_)
    rintro _ _ _ rfl _
    exact into_grows fun _ => ⟨rfl, rfl⟩
  · rw [heq]
    exact grows_fail

/-- An assignment leaves its value where it was computed. -/
theorem assignment_grows {target value : Expr} {op : BinaryOp} (hop : op.isAssignment = true)
    (ht : Grows target) (hv : Grows value) (hA : (Expr.binary target op value).AssignsOnly A) :
    grows A base (expr (.binary target op value))
      (Resides base (Expr.binary target op value).alias?) start scope := by
  obtain ⟨hself, hAt, hAv⟩ := Expr.all_binary_iff.1 hA
  have hroot : ∀ x, target.root? = some x → A x := hself target op value rfl hop
  cases op with
  | assign =>
    rw [expr]
    split
    · refine grows_bind (grows_mono (hv.expr hAv) ?_)
      intro v mid _ hplace _
      refine grows_bind (grows_mono (ht.store hAt hroot) ?_)
      intro _ after hs _ _
      exact grows_pure (hplace.since hs)
    · exact grows_fail
  | update op =>
    rw [expr]
    split
    · refine grows_bind (grows_mono (ht.expr hAt) fun current mid _ _ _ => ?_)
      refine grows_bind (grows_mono (hv.expr hAv) fun operand mid _ _ _ => ?_)
      refine grows_bind (grows_mono arith_grows fun v mid _ hplace _ => ?_)
      refine grows_bind (grows_mono (ht.store hAt hroot) ?_)
      intro _ after hs _ _
      exact grows_pure (hplace.since hs)
    · exact grows_fail
  | _ => cases hop

/-- The code of every expression grows as it should. -/
theorem expr_grows (e : Expr) : Grows e := by
  induction e using Expr.induct with
  | literal v =>
    refine ⟨fun _ => ?_, fun _ _ => grows_fail⟩
    exact into_grows fun _ => ⟨rfl, rfl⟩
  | ident name =>
    refine ⟨fun _ => grows_of fun hs => grows_mono ident_grows ?_,
      fun _ hroot => assign_grows (hroot name rfl)⟩
    rintro o _ _ ⟨ho, rfl⟩
    exact ⟨hs.wf.lt ho, fun hx => ⟨o, Option.some.inj hx ▸ ho, rfl⟩, fun hn => (nomatch hn)⟩
  | element target key iht ihk =>
    refine ⟨fun hA => ?_, fun hA hroot => ?_⟩
    · obtain ⟨_, hAt, hAk⟩ := Expr.all_element_iff.1 hA
      rw [expr]
      refine grows_bind (grows_mono (iht.expr hAt) fun container mid _ _ _ => ?_)
      exact grows_bind (grows_mono (ihk.expr hAk) fun k after _ _ _ => get_grows)
    · obtain ⟨_, hAt, hAk⟩ := Expr.all_element_iff.1 hA
      exact store_element_grows iht ihk hAt hAk hroot
  | array items ih =>
    refine ⟨fun hA => ?_, fun _ _ => grows_fail⟩
    rw [expr]
    refine grows_bind
      (grows_mono (exprs_grows_of ih (Expr.all_array_iff.1 hA).2) fun os after _ _ _ => ?_)
    exact into_grows fun _ => ⟨rfl, rfl⟩
  | map entries ih =>
    exact ⟨fun hA => map_grows ih (Expr.all_map_iff.1 hA).2, fun _ _ => grows_fail⟩
  | call name args ih =>
    exact ⟨fun hA => call_grows ih (Expr.all_call_iff.1 hA).2, fun _ _ => grows_fail⟩
  | group inner ih =>
    refine ⟨fun hA => ?_, fun _ _ => grows_fail⟩
    rw [expr]
    exact ih.expr (Expr.all_group_iff.1 hA).2
  | unary op operand ih =>
    refine ⟨fun hA => ?_, fun _ _ => grows_fail⟩
    rw [expr]
    exact grows_bind
      (grows_mono (ih.expr (Expr.all_unary_iff.1 hA).2) fun o after _ _ _ => negation_grows)
  | binary left op right ihl ihr =>
    refine ⟨fun hA => ?_, fun _ _ => grows_fail⟩
    obtain ⟨_, hAl, hAr⟩ := Expr.all_binary_iff.1 hA
    cases op with
    | arith op =>
      rw [expr]
      refine grows_bind (grows_mono (ihl.expr hAl) fun l mid _ _ _ => ?_)
      exact grows_bind (grows_mono (ihr.expr hAr) fun r after _ _ _ => arith_grows)
    | relation op =>
      rw [expr]
      refine grows_bind (grows_mono (ihl.expr hAl) fun l mid _ _ _ => ?_)
      refine grows_bind (grows_mono (ihr.expr hAr) fun r after _ _ _ => ?_)
      exact into_grows fun _ => ⟨rfl, rfl⟩
    | and =>
      rw [expr]
      refine grows_bind (grows_mono (ihl.expr hAl) fun l mid _ _ _ => ?_)
      exact connect_grows (fun _ _ => ⟨rfl, rfl⟩) ihr hAr
    | or =>
      rw [expr]
      refine grows_bind (grows_mono (ihl.expr hAl) fun l mid _ _ _ => ?_)
      exact connect_grows (fun _ _ => ⟨rfl, rfl⟩) ihr hAr
    | assign => exact assignment_grows rfl ihl ihr hA
    | update op => exact assignment_grows rfl ihl ihr hA

/-- What the code of one expression adds to the scope it stands in. -/
theorem expr_grown {e : Expr} {a : Emitted Operand} (hA : e.AssignsOnly A) (hwf : scope.WF)
    (h : expr e start scope = .ok a) :
    Grown A scope start scope a ∧ Resides scope e.alias? a.value a.scope :=
  (expr_grows e).expr hA (.refl hwf) a h

theorem exprs_grown {es : List Expr} {a : Emitted (List Operand)} (hA : ∀ e ∈ es, e.AssignsOnly A)
    (hwf : scope.WF) (h : exprs es start scope = .ok a) :
    Grown A scope start scope a ∧ ∀ o ∈ a.value, o.register < a.scope.registers :=
  exprs_grows_of (fun e _ => expr_grows e) hA (.refl hwf) a h

theorem store_grown {target : Expr} {value : Operand} {a : Emitted Unit} (hwf : scope.WF)
    (h : store target value start scope = .ok a) : Grown (fun _ => True) scope start scope a :=
  ((expr_grows target).store target.assignsOnly_true (fun _ _ => trivial) (.refl hwf) a h).1

/-! ## Running what has grown -/

/-- What the run of a piece can have done to the registers, as far as it can be read off the code:
from `scope` and `s` to `after` and `t`, only registers that were issued on the way or belong to a
variable in `A` have been written. -/
structure Ran (A : String → Prop) (scope : Scope) (s : State) (after : Scope)
    (t : State) : Prop where
  since : Scope.Since A scope after
  kept : ∀ {r}, ¬ scope.Owns A r → t.registers.get? r = s.registers.get? r
  beyond : ∀ {r}, after.registers ≤ r → t.registers.get? r = s.registers.get? r

theorem Ran.mono {B : String → Prop} {after : Scope} {s t : State} (h : Ran A scope s after t)
    (hAB : ∀ x, A x → B x) : Ran B scope s after t :=
  ⟨h.since.mono hAB, fun hr => h.kept fun howns => hr (howns.mono hAB), h.beyond⟩

/-- Two pieces one behind the other. -/
theorem Ran.trans {mid after : Scope} {s t u : State} (h : Ran A scope s mid t)
    (g : Ran A mid t after u) : Ran A scope s after u where
  since := h.since.trans g.since
  kept hr := (g.kept fun howns => hr (howns.since h.since)).trans (h.kept hr)
  beyond hr := (g.beyond hr).trans (h.beyond (Nat.le_trans g.since.le hr))

/-- What growth says of a piece is known behind every run of it. -/
theorem wp_ran {α : Type} {code : List Instruction} {I : State → Prop}
    {E : Instruction → Fault → Prop} {x : Emit α} {Q : α → Scope → State → Prop}
    {s : State} (hx : ∀ a, x s.next scope = .ok a → Grown A scope s.next scope a)
    (h : wp code I E x Q scope s) :
    wp code I E x (fun v after t => Q v after t ∧ Ran A scope s after t) scope s := by
  have hframe := wp_frame (D := fun after r => scope.Owns A r ∧ r < after.registers) h ?_
  · refine wp_mono hframe ?_
    rintro v after t ⟨piece, hpiece, _⟩ ⟨hQ, hsame⟩
    refine ⟨hQ, (hx _ hpiece).since, ?_, ?_⟩
    · intro r hr
      exact hsame r fun hD => hr hD.1
    · intro r hr
      exact hsame r fun hD => Nat.not_lt.2 hr hD.2
  · intro a ha i hi r hr
    obtain ⟨hlt, howns⟩ := (hx a ha).dests i hi r hr
    exact ⟨howns, hlt⟩

/-- What is always known behind code that leaves a result in a register. -/
theorem wp_resides {code : List Instruction} {I : State → Prop} {E : Instruction → Fault → Prop}
    {x : Emit Operand} {own : Option String} {Q : Operand → Scope → State → Prop}
    {s : State} (hwf : scope.WF) (hx : grows A scope x (Resides scope own) s.next scope)
    (h : wp code I E x Q scope s) :
    wp code I E x (fun o after t => Q o after t ∧ Ran A scope s after t ∧ Resides scope own o after)
      scope s := by
  refine wp_mono (wp_ran (fun a ha => (hx (.refl hwf) a ha).1) h) ?_
  rintro o after t ⟨piece, hpiece, _⟩ ⟨hQ, hran⟩
  exact ⟨hQ, hran, (hx (.refl hwf) _ hpiece).2⟩

theorem expr_ran {code : List Instruction} {I : State → Prop} {E : Instruction → Fault → Prop}
    {e : Expr} {Q : Operand → Scope → State → Prop} {s : State} (hA : e.AssignsOnly A)
    (hwf : scope.WF) (h : wp code I E (expr e) Q scope s) :
    wp code I E (expr e) (fun o after t => Q o after t ∧ Ran A scope s after t ∧
      Resides scope e.alias? o after) scope s :=
  wp_resides hwf ((expr_grows e).expr hA) h

theorem store_ran {code : List Instruction} {I : State → Prop} {E : Instruction → Fault → Prop}
    {target : Expr} {value : Operand} {Q : Unit → Scope → State → Prop} {s : State} (hwf : scope.WF)
    (h : wp code I E (store target value) Q scope s) :
    wp code I E (store target value)
      (fun u after t => Q u after t ∧ Ran (fun _ => True) scope s after t) scope s :=
  wp_ran (fun _ ha => store_grown hwf ha) h

/-! ## Programs -/

/-- The code of a whole program grows as it should. -/
theorem statements_grown {p : Program} {all : Emitted Unit}
    (hbase : Scope.Since (fun _ => True) base scope) (h : statements start scope p = .ok all) :
    Grown (fun _ => True) base start scope all := by
  induction p generalizing start scope all with
  | nil =>
    obtain rfl := Except.ok.inj h
    refine ⟨.refl hbase.wf, ?_, ?_⟩
    · intro i hi
      cases hi
    · intro k i t hi
      cases hi
  | cons st rest ih =>
    obtain ⟨first, others, hfirst, hothers, rfl⟩ := statements_cons h
    obtain ⟨hg, _⟩ := (expr_grows st.expr).expr st.expr.assignsOnly_true hbase first hfirst
    exact hg.append (ih (hbase.trans hg.since) hothers)

end Lowering

/-! ## Forward code -/

namespace State

variable {code : List Instruction} {s t : State}

/-- All jumps lead forward. -/
def Forward (code : List Instruction) : Prop :=
  ∀ (k t : Nat) (i : Instruction), code[k]? = some i → i.target? = some t → k < t

/-- Forward code is left further behind by each step, so no instruction is carried out twice. -/
theorem Step.lt (hf : Forward code) (h : Step code s t) : s.next < t.next := by
  obtain ⟨i, hi, ht⟩ := h
  rcases Step.next ⟨i, hi, ht⟩ hi with hn | hn
  · omega
  · exact hf _ _ i hi hn

theorem Reaches.le (hf : Forward code) (h : Reaches code s t) : s.next ≤ t.next := by
  -- No step goes back, so no number of steps does.
  induction h with
  | refl => exact Nat.le_refl _
  | tail _ hstep ih => exact Nat.le_trans ih (Nat.le_of_lt (hstep.lt hf))

/-- A run through forward code stands at no index twice. -/
theorem Reaches.eq_of_next_eq (hf : Forward code) (h : Reaches code s t)
    (hn : t.next ≤ s.next) : s = t := by
  rcases Relation.ReflTransGen.cases_head h with rfl | ⟨u, hu, hut⟩
  · rfl
  · have hlt := hu.lt hf
    have hle := Reaches.le hf hut
    omega

end State

theorem Program.lower_forward {p : Program} {routine : Routine} (h : p.lower = .ok routine) :
    State.Forward routine.code := by
  obtain ⟨all, hall, rfl⟩ := Lowering.statements_of_lower h
  intro k t i hi ht
  have hj := (Lowering.statements_grown (.refl Scope.empty_wf) hall).jumps k i t hi ht
  omega

end LineScript
