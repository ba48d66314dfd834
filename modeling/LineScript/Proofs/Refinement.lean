import LineScript.Proofs.Code.Variables
import LineScript.Proofs.Evaluator

/-!
# Code does what the evaluator says

A run is compared with the reference evaluator piece by piece. `Matches` ties a state of the run to
a world: each variable's register holds the variable's value, up to element kinds; the registers
that are not yet issued are empty; and what the run has printed is what the evaluator has printed.

* `Lowering.expr_refines`: the code of an expression without assignments ends with the value of the
  expression in its register, or with an empty register if the expression is a call of `print`.
* `Lowering.store_refines`: the code that stores a value into a target updates the variable at the
  root of the target along the path of its keys. The code works from the inside out and computes the
  keys once for each level; `Value.update?_concat` and `Expr.eval_pure` are what that rests on.
* `Program.run_refines_eval`: a program whose assignments stand at the roots of its statements, run
  to its end, has printed what the evaluator prints and has left the evaluator's values in its
  variables.

Nothing is assumed about what is known in advance of kinds. Where a hint were wrong, the instruction
that was chosen for it would fail.
-/

set_option autoImplicit false

namespace LineScript

open State Emit

/-! ## Operations of the evaluator and of instructions -/

namespace Value

/-- Where the machine finds an item the evaluator finds its bare value. The next three say the same
of stores and of maps. -/
theorem at?_of_getItem {a v : Value} {index : Decimal} (h : a.getItem index = .ok v) :
    a.bare.at? (.number index) = some v.bare := by
  obtain ⟨_, items, i, ha, hi, hv⟩ := getItem_eq_ok_iff.1 (getItem_bare h)
  obtain ⟨hindex, _⟩ := position_eq_ok_iff.1 hi
  rw [ha, at?, hindex, Option.bind_some, hv]

theorem put?_of_setItem {a v new : Value} {index : Decimal} (h : a.setItem index v = .ok new) :
    a.bare.put? (.number index) v.bare = some new.bare := by
  obtain ⟨element, items, i, rfl, hi, rfl⟩ := setItem_eq_ok_iff.1 h
  obtain ⟨hindex, hlt⟩ := position_eq_ok_iff.1 hi
  have hlen : i < (items.map bare).length := by rwa [List.length_map]
  rw [bare_array, bare_array, put?, hindex, Option.bind_some, if_pos hlen, List.map_set]

theorem at?_of_getEntry {m k v : Value} (h : m.getEntry k.key = .ok v) :
    m.bare.at? k.bare = some v.bare := by
  obtain ⟨_, entries, hm, hv⟩ := getEntry_eq_ok_iff.1 (getEntry_bare h)
  rw [hm, at?, key_bare, hv]

theorem put?_of_setEntry {m k v new : Value} (h : m.setEntry k.key v = .ok new) :
    m.bare.put? k.bare v.bare = some new.bare := by
  obtain ⟨element, entries, rfl, rfl⟩ := setEntry_eq_ok_iff.1 h
  rw [bare_map, bare_map, put?, key_bare, insert_entries_bare]

end Value

/-! ## States and worlds -/

/-- A state of the run and a world of the evaluator say the same, what was printed before the run
apart. -/
structure Matches (before : List UInt8) (scope : Scope) (s : State) (w : World) : Prop where
  bound : Variables (fun x _ held => ∃ v, held = some v ∧ w.vars x = some v.bare) scope s
  unbound : ∀ {x}, scope.find? x = none → w.vars x = none
  output : s.sink.taken.toList = before ++ Utf8.encode w.output

variable {code : List Instruction} {before : List UInt8} {scope after : Scope} {s t : State}
    {w w₁ : World}

namespace Matches

theorem wf (h : Matches before scope s w) : scope.WF := h.bound.wf

/-- To write a register that belongs to no variable changes nothing in the world. -/
theorem wrote {r : Register} {v : Value} (h : Matches before scope s w) (hlt : r < scope.registers)
    (hr : ∀ x b, scope.find? x = some b → b.register ≠ r) : Matches before scope (s.wrote r v) w :=
  ⟨h.bound.wrote hlt hr, h.unbound, h.output⟩

theorem wrote_fresh {v : Value} (h : Matches before scope s w) :
    Matches before { scope with registers := scope.registers + 1 } (s.wrote scope.registers v) w :=
  ⟨h.bound.wrote_fresh, h.unbound, h.output⟩

/-- To assign a variable anew is to write its register. -/
theorem rebind {x : String} {b operand : Operand} {v : Value} (h : Matches before scope s w)
    (hb : scope.find? x = some b) (hr : operand.register = b.register) :
    Matches before (scope.bind x operand) (s.wrote b.register v) (w.set x v.bare) where
  bound := h.bound.rebind hb hr ⟨v, rfl, if_pos rfl⟩
    fun y _ _ hy ⟨u, hu, hw⟩ => ⟨u, hu, (if_neg hy).trans hw⟩
  unbound {y} hn := by
    rw [Scope.find?_bind] at hn
    by_cases hy : y = x
    · rw [if_pos hy] at hn
      cases hn
    · rw [if_neg hy] at hn
      exact (if_neg hy).trans (h.unbound hn)
  output := h.output

/-- A variable that is assigned for the first time gets the next register. -/
theorem bindNew {x : String} {kind : Option Kind} {v : Value} (h : Matches before scope s w)
    (hn : scope.find? x = none) :
    Matches before (Scope.bind { scope with registers := scope.registers + 1 } x
      ⟨scope.registers, kind⟩) (s.wrote scope.registers v) (w.set x v.bare) where
  bound := h.bound.bindNew hn ⟨v, rfl, if_pos rfl⟩
    fun y _ _ hy ⟨u, hu, hw⟩ => ⟨u, hu, (if_neg hy).trans hw⟩
  unbound {y} hn := by
    rw [Scope.find?_bind] at hn
    by_cases hy : y = x
    · rw [if_pos hy] at hn
      cases hn
    · rw [if_neg hy] at hn
      exact (if_neg hy).trans (h.unbound hn)
  output := h.output

/-- What has assigned no variable leaves the match as it was. -/
theorem since (h : Matches before scope s w) (hs : Scope.Since (fun _ => False) scope after) :
    Matches before after s w where
  bound := h.bound.skipped hs fun _ _ hc => h.bound.holds (hs.same id ▸ hc)
  unbound hb := h.unbound (hs.same id ▸ hb)
  output := h.output

theorem moved {n : Nat} (h : Matches before scope s w) :
    Matches before scope { s with next := n } w :=
  ⟨h.bound.moved, h.unbound, h.output⟩

/-- Before a run there are no variables, and nothing has been printed. -/
theorem initial (sink : Sink) (routine : Routine) :
    Matches sink.taken.toList .empty (routine.start sink) World.initial :=
  ⟨.initial routine sink, fun _ => rfl, (List.append_nil _).symm⟩

end Matches

/-- Code without assignments leaves every register as it is that was issued before. -/
theorem Lowering.Ran.below {r : Register} (h : Lowering.Ran (fun _ => False) scope s after t)
    (hr : r < scope.registers) : t.registers.get? r = s.registers.get? r := by
  refine h.kept ?_
  rintro (hle | ⟨_, _, hx, _⟩)
  · exact Nat.not_lt.2 hle hr
  · exact hx

namespace Lowering

/-- A piece of code that ends as `Q` says, whatever instruction may fail in it. -/
abbrev ends {α : Type} (code : List Instruction) (x : Emit α) (Q : α → Scope → State → Prop)
    (scope : Scope) (s : State) : Prop :=
  wp code (fun _ => True) (fun _ _ => True) x Q scope s

/-! ## Single instructions -/

variable {Q : Operand → Scope → State → Prop}

/-- A value goes to the next register. Which one it is depends on the instruction. -/
theorem into_ends {i : Register → Instruction} {kind : Option Kind}
    (h : ∀ effect, (i scope.registers).effect s.registers = .ok effect →
      ∃ v, effect = .write scope.registers v ∧
        Q ⟨scope.registers, kind⟩ { scope with registers := scope.registers + 1 }
          (s.wrote scope.registers v)) : ends code (into i kind) Q scope s :=
  wp_into (fun _ => trivial) (fun _ _ => trivial) h

/-- Whichever instruction a hint selects, it computes what the evaluator does, or fails. -/
theorem arith_ends {op : Arith} {l r : Operand}
    (h : ∀ kind a b v, s.registers.get? l.register = some a → s.registers.get? r.register = some b →
      a.bare.arith? op b.bare = some v.bare →
      Q ⟨scope.registers, kind⟩ { scope with registers := scope.registers + 1 }
        (s.wrote scope.registers v)) : ends code (arith op l r) Q scope s := by
  unfold arith
  split
  · refine into_ends fun effect he => ?_
    obtain ⟨a, b, ha, hb, rfl⟩ := Instruction.effect_combine he
    exact ⟨_, rfl, h _ _ _ _ ha hb (by simp [Value.arith?])⟩
  · refine into_ends fun effect he => ?_
    obtain ⟨a, b, ha, hb, rfl⟩ := Instruction.effect_concat he
    exact ⟨_, rfl, h _ _ _ _ ha hb (by simp [Value.arith?])⟩
  · refine into_ends fun effect he => ?_
    obtain ⟨a, b, n, ha, hb, hn, rfl⟩ := Instruction.effect_arith he
    exact ⟨_, rfl, h _ _ _ _ ha hb (by simp [Value.arith?, hn, Except.toOption])⟩

theorem negation_ends {op : UnaryOp} {o : Operand}
    (h : ∀ kind a v, s.registers.get? o.register = some a → a.bare.negation? op = some v.bare →
      Q ⟨scope.registers, kind⟩ { scope with registers := scope.registers + 1 }
        (s.wrote scope.registers v)) : ends code (negation op o) Q scope s := by
  cases op with
  | not =>
    refine into_ends fun effect he => ?_
    obtain ⟨a, ha, rfl⟩ := Instruction.effect_not he
    exact ⟨_, rfl, h _ _ _ ha (by simp [Value.negation?])⟩
  | negate =>
    refine into_ends fun effect he => ?_
    obtain ⟨a, n, ha, hn, rfl⟩ := Instruction.effect_negate he
    exact ⟨_, rfl, h _ _ _ ha (by simp [Value.negation?, hn, Except.toOption])⟩

/-- Of a known array an item is read, of everything else an entry; the evaluator asks the value
itself which it is. -/
theorem get_ends {container key : Operand}
    (h : ∀ kind c k v, s.registers.get? container.register = some c →
      s.registers.get? key.register = some k → c.bare.at? k.bare = some v.bare →
      Q ⟨scope.registers, kind⟩ { scope with registers := scope.registers + 1 }
        (s.wrote scope.registers v)) : ends code (get container key) Q scope s := by
  have hentry : ∀ kind,
      ends code (into (.getEntry container.register key.register) kind) Q scope s := by
    intro kind
    refine into_ends fun effect he => ?_
    obtain ⟨m, k, v, hm, hk, hv, rfl⟩ := Instruction.effect_getEntry he
    exact ⟨v, rfl, h _ _ _ _ hm hk (Value.at?_of_getEntry hv)⟩
  unfold get
  split
  · refine wp_bind (wp_checkIndex (into_ends fun effect he => ?_))
    obtain ⟨a, i, v, ha, hi, hv, rfl⟩ := Instruction.effect_getItem he
    exact ⟨v, rfl, h _ _ _ _ ha hi (by rw [Value.bare_number]; exact Value.at?_of_getItem hv)⟩
  · exact hentry _
  · exact hentry _

theorem put_ends {container key value : Operand}
    (h : ∀ kind c k v new, s.registers.get? container.register = some c →
      s.registers.get? key.register = some k → s.registers.get? value.register = some v →
      c.bare.put? k.bare v.bare = some new.bare →
      Q ⟨container.register, kind⟩ scope (s.wrote container.register new)) :
    ends code (put container key value) Q scope s := by
  have hentry : ∀ kind, ends code (do
      Emit.instruction (.setEntry container.register key.register value.register)
      pure ⟨container.register, kind⟩) Q scope s := by
    intro kind
    refine wp_bind (wp_write (fun _ => trivial) (fun _ _ => trivial) fun effect he => ?_)
    obtain ⟨m, k, v, new, hm, hk, hv, hnew, rfl⟩ := Instruction.effect_setEntry he
    exact ⟨_, new, rfl, wp_pure (h _ _ _ _ _ hm hk hv (Value.put?_of_setEntry hnew))⟩
  unfold put
  split
  · refine wp_bind (wp_checkIndex
      (wp_bind (wp_write (fun _ => trivial) (fun _ _ => trivial) fun effect he => ?_)))
    obtain ⟨a, i, v, new, ha, hi, hv, hnew, rfl⟩ := Instruction.effect_setItem he
    refine ⟨_, new, rfl, wp_pure (h _ _ _ _ _ ha hi hv ?_)⟩
    rw [Value.bare_number]
    exact Value.put?_of_setItem hnew
  · exact hentry _
  · exact hentry _

/-! ## Expressions -/

/-- The evaluator has a result for the expression, and the run agrees with it: the register of the
expression holds the value, or is empty if there is none. -/
def Refines (before : List UInt8) (e : Expr) (w : World) (o : Operand) (after : Scope)
    (t : State) : Prop :=
  ∃ w₁, e.eval w = some ((t.registers.get? o.register).map Value.bare, w₁) ∧
    Matches before after t w₁

/-- The code of an expression agrees with the evaluator, and leaves alone what was there before. -/
def Simulated (e : Expr) : Prop :=
  ∀ ⦃code before scope s w⦄, Matches before scope s w →
    ends code (expr e)
      (fun o after t => Refines before e w o after t ∧ Ran (fun _ => False) scope s after t ∧
        Resides scope e.alias? o after) scope s

/-- An expression without assignments touches no register of a variable, so only its result has to
be looked at. -/
theorem simulated_of {e : Expr} (he : e.AssignmentFree)
    (h : ∀ {code before scope s w}, Matches before scope s w →
      ends code (expr e) (Refines before e w) scope s) : Simulated e :=
  fun _ _ _ _ _ hm => expr_ran he.assignsOnly hm.wf (h hm)

/-- The register of the expression was just written, outside the variables. -/
theorem Refines.fresh {e : Expr} {v : Value} {kind : Option Kind} (hm : Matches before scope s w₁)
    (h : e.eval w = some (some v.bare, w₁)) :
    Refines before e w ⟨scope.registers, kind⟩ { scope with registers := scope.registers + 1 }
      (s.wrote scope.registers v) := by
  refine ⟨w₁, ?_, hm.wrote_fresh⟩
  rw [wrote_get?_self, Option.map_some, h]

/-- Several expressions; the evaluator has their values if none of their registers is empty. -/
theorem exprs_refines {es : List Expr} (h : ∀ e ∈ es, Simulated e) (hm : Matches before scope s w) :
    ends code (exprs es)
      (fun os after t => ∃ w₁, Matches before after t w₁ ∧ scope.registers ≤ after.registers ∧
        (∀ r < scope.registers, t.registers.get? r = s.registers.get? r) ∧
        ∀ values : List Value, os.map (fun o => t.registers.get? o.register) = values.map some →
          Expr.evalAll es w = some (values.map Value.bare, w₁)) scope s := by
  -- On the list. Later operands leave the registers of earlier ones alone, so what these hold at
  -- the end is what their evaluation gave.
  induction es generalizing scope s w with
  | nil =>
    rw [exprs]
    refine wp_pure ⟨w, hm, Nat.le_refl _, fun _ _ => rfl, ?_⟩
    intro values hvalues
    obtain rfl : values = [] := List.map_eq_nil_iff.1 hvalues.symm
    simp [Expr.evalAll]
  | cons e rest ih =>
    rw [exprs]
    refine wp_bind (wp_mono (h e List.mem_cons_self hm) ?_)
    rintro o mid t₁ _ ⟨⟨w₁, heval, hm₁⟩, hran, hres⟩
    refine wp_bind (wp_mono (ih (fun e he => h e (List.mem_cons_of_mem _ he)) hm₁) ?_)
    rintro os after t₂ _ ⟨w₂, hm₂, hle, hkept, hrest⟩
    refine wp_pure ⟨w₂, hm₂, Nat.le_trans hran.since.le hle, ?_, ?_⟩
    · intro r hr
      rw [hkept r (Nat.lt_of_lt_of_le hr hran.since.le), hran.below hr]
    · intro values hvalues
      cases values with
      | nil => cases hvalues
      | cons v vs =>
        obtain ⟨ho, hos⟩ := List.cons.inj hvalues
        -- The first operand was issued before the others were computed.
        simp only [hkept _ hres.lt] at ho
        rw [ho] at heval
        exact Expr.evalAll_cons_eq_some_iff.2 ⟨_, _, w₁, heval, hrest vs hos, rfl⟩

/-- Keys and values of a map, likewise. -/
theorem entries_refines {ps : List (Expr × Expr)} (h : ∀ p ∈ ps, Simulated p.1 ∧ Simulated p.2)
    (hm : Matches before scope s w) :
    ends code (entries ps)
      (fun os after t => ∃ w₁, Matches before after t w₁ ∧ scope.registers ≤ after.registers ∧
        (∀ o ∈ os, o.1.register < after.registers ∧ o.2.register < after.registers) ∧
        (∀ r < scope.registers, t.registers.get? r = s.registers.get? r) ∧
        ∀ pairs : List (Value × Value),
          os.map (fun o => (t.registers.get? o.1.register, t.registers.get? o.2.register)) =
            pairs.map (fun p => (some p.1, some p.2)) →
          Expr.evalEntries ps w = some (pairs.map (fun p => (p.1.key, p.2.bare)), w₁)) scope s := by
  induction ps generalizing scope s w with
  | nil =>
    rw [entries]
    refine wp_pure
      ⟨w, hm, Nat.le_refl _, fun o ho => absurd ho List.not_mem_nil, fun _ _ => rfl, ?_⟩
    intro pairs hpairs
    obtain rfl : pairs = [] := List.map_eq_nil_iff.1 hpairs.symm
    simp [Expr.evalEntries]
  | cons p rest ih =>
    obtain ⟨key, value⟩ := p
    have hp := h _ List.mem_cons_self
    rw [entries]
    refine wp_bind (wp_mono (hp.1 hm) ?_)
    rintro k mid t₁ _ ⟨⟨w₁, hkey, hm₁⟩, hran₁, hres₁⟩
    refine wp_bind (wp_mono (hp.2 hm₁) ?_)
    rintro v mid' t₂ _ ⟨⟨w₂, hvalue, hm₂⟩, hran₂, hres₂⟩
    refine wp_bind (wp_mono (ih (fun e he => h e (List.mem_cons_of_mem _ he)) hm₂) ?_)
    rintro os after t₃ _ ⟨w₃, hm₃, hle, hlt, hkept, hrest⟩
    have hle₂ := hran₂.since.le
    have hk : k.register < mid'.registers := Nat.lt_of_lt_of_le hres₁.lt hle₂
    refine wp_pure ⟨w₃, hm₃, Nat.le_trans hran₁.since.le (Nat.le_trans hle₂ hle), ?_, ?_, ?_⟩
    · intro o ho
      rcases List.mem_cons.1 ho with rfl | ho
      · exact ⟨Nat.lt_of_lt_of_le hk hle, Nat.lt_of_lt_of_le hres₂.lt hle⟩
      · exact hlt o ho
    · intro r hr
      have hr₁ := Nat.lt_of_lt_of_le hr hran₁.since.le
      rw [hkept r (Nat.lt_of_lt_of_le hr₁ hle₂), hran₂.below hr₁, hran₁.below hr]
    · intro pairs hpairs
      cases pairs with
      | nil => cases hpairs
      | cons pair pairs =>
        obtain ⟨hhead, hos⟩ := List.cons.inj hpairs
        obtain ⟨hgetk, hgetv⟩ := Prod.mk.inj hhead
        -- Key and value are read behind the whole list, and hold what they held.
        rw [hkept _ hk, hran₂.below hres₁.lt] at hgetk
        rw [hkept _ hres₂.lt] at hgetv
        rw [hgetk] at hkey
        rw [hgetv] at hvalue
        refine Expr.evalEntries_cons_eq_some_iff.2
          ⟨_, _, _, w₁, w₂, hkey, hvalue, hrest pairs hos, ?_⟩
        simp

/-- Entries are put into a map that is in the making. -/
theorem putEntries_refines {map : Register} {pairs : List (Operand × Operand)} {v : Value}
    {entries : List (String × Value)} (hm : Matches before scope s w) (hlt : map < scope.registers)
    (hvar : ∀ x b, scope.find? x = some b → b.register ≠ map)
    (hne : ∀ p ∈ pairs, p.1.register ≠ map ∧ p.2.register ≠ map)
    (hv : s.registers.get? map = some v) (hbare : v.bare = .map .any entries) :
    ends code (putEntries map pairs)
      (fun _ after t => Matches before after t w ∧ ∃ (values : List (Value × Value)) (new : Value),
        pairs.map (fun p => (s.registers.get? p.1.register, s.registers.get? p.2.register)) =
          values.map (fun p => (some p.1, some p.2)) ∧
        t.registers.get? map = some new ∧
        new.bare = .map .any ((values.map fun p => (p.1.key, p.2.bare)).foldl
          (fun es p => Entries.insert p.1 p.2 es) entries)) scope s := by
  -- On the entries. The map in the making grows by the entries that the evaluator inserts.
  induction pairs generalizing s v entries with
  | nil =>
    rw [putEntries]
    exact wp_pure ⟨hm, [], v, rfl, hv, hbare⟩
  | cons p rest ih =>
    obtain ⟨key, value⟩ := p
    obtain ⟨hkey, hvalue⟩ := hne _ List.mem_cons_self
    rw [putEntries]
    refine wp_bind (wp_write (fun _ => trivial) (fun _ _ => trivial) fun effect he => ?_)
    obtain ⟨m, k, u, new, hget, hk, hu, hnew, rfl⟩ := Instruction.effect_setEntry he
    obtain rfl : v = m := Option.some.inj (hv.symm.trans hget)
    have hnew' := Value.setEntry_bare hnew
    rw [hbare] at hnew'
    have hnewbare : new.bare = .map .any (Entries.insert k.key u.bare entries) :=
      (Except.ok.inj hnew').symm
    refine ⟨map, new, rfl, ?_⟩
    refine wp_mono (ih (hm.wrote hlt hvar)
      (fun q hq => hne q (List.mem_cons_of_mem _ hq)) (wrote_get?_self _ _ _) hnewbare) ?_
    rintro _ after t _ ⟨hm', values, last, hvalues, hlast, hlastbare⟩
    refine ⟨hm', (k, u) :: values, last, ?_, hlast, hlastbare⟩
    -- None of the operands still to come was written by this instruction.
    have hrest :
        rest.map (fun p => (s.registers.get? p.1.register, s.registers.get? p.2.register)) =
          rest.map fun p => ((s.wrote map new).registers.get? p.1.register,
            (s.wrote map new).registers.get? p.2.register) := by
      refine List.map_congr_left fun q hq => ?_
      obtain ⟨h1, h2⟩ := hne q (List.mem_cons_of_mem _ hq)
      rw [wrote_get?_of_ne h1, wrote_get?_of_ne h2]
    rw [List.map_cons, List.map_cons, hk, hu, hrest, hvalues]

/-- `and` and `or`: the left operand is copied, and unless its truth settles the matter the right
operand is copied over it. -/
theorem logical_refines {e left right : Expr} {jump : Register → Nat → Instruction} {taken : Bool}
    (hl : Simulated left) (hr : Simulated right) (hfree : right.AssignmentFree)
    (hjump : ∀ r, Branches (jump r) r taken) (hskip : ∀ {w a w₁}, left.eval w = some (some a, w₁) →
      a.isTrue = taken → e.eval w = some (some a, w₁))
    (henter : ∀ {w a w₁ b w₂}, left.eval w = some (some a, w₁) → a.isTrue ≠ taken →
      right.eval w₁ = some (some b, w₂) → e.eval w = some (some b, w₂))
    (hm : Matches before scope s w) :
    ends code (expr left >>= fun left => connect jump left (expr right))
      (Refines before e w) scope s := by
  refine wp_bind (wp_mono (hl hm) ?_)
  rintro l mid t₁ _ ⟨⟨w₁, heval, hm₁⟩, _, _⟩
  refine wp_bind (into_ends fun effect he => ?_)
  obtain ⟨a, ha, rfl⟩ := Instruction.effect_copy he
  refine ⟨a, rfl, ?_⟩
  rw [ha, Option.map_some] at heval
  have hm₂ := hm₁.wrote_fresh (v := a)
  -- The result has a register that no variable has.
  have hnew : ∀ x b, Scope.find? { mid with registers := mid.registers + 1 } x = some b →
      b.register ≠ mid.registers := fun x b hb => Nat.ne_of_lt (hm₁.wf.lt (x := x) hb)
  refine wp_bind (wp_branch (hjump _) (fun _ _ => trivial) (fun _ _ _ => trivial) ?_ ?_)
  · intro v hv htrue
    obtain rfl : a = v := Option.some.inj ((wrote_get?_self _ _ _).symm.trans hv)
    refine wp_bind (wp_mono (hr hm₂.moved) ?_)
    rintro r after t₃ _ ⟨⟨w₃, hright, hm₃⟩, hran, _⟩
    refine wp_bind (wp_write (fun _ => trivial) (fun _ _ => trivial) fun effect he => ?_)
    obtain ⟨b, hb, rfl⟩ := Instruction.effect_copy he
    refine ⟨_, b, rfl, wp_pure (wp_pure ⟨w₃, ?_, ?_⟩)⟩
    · rw [hb, Option.map_some] at hright
      rw [wrote_get?_self, Option.map_some]
      exact henter heval (by rwa [Value.isTrue_bare]) hright
    · refine hm₃.wrote (Nat.lt_of_lt_of_le (Nat.lt_succ_self _) hran.since.le) ?_
      intro x c hc
      rw [hran.since.same id] at hc
      exact hnew x c hc
  · intro v target hv htrue r stop after hyields
    obtain rfl : a = v := Option.some.inj ((wrote_get?_self _ _ _).symm.trans hv)
    obtain ⟨stop', piece, hpiece, _⟩ := yields_of_skipped hyields
    -- The code that was skipped has bound no variable, for it assigns nothing.
    have hsince := (expr_grown (A := fun _ => False) hfree.assignsOnly hm₂.wf hpiece).1.since
    refine wp_pure ⟨w₁, ?_, (hm₂.since hsince).moved⟩
    change e.eval w =
      some ((((t₁.wrote mid.registers a).registers.get? mid.registers)).map Value.bare, w₁)
    rw [wrote_get?_self, Option.map_some]
    exact hskip heval (by rwa [Value.isTrue_bare])

/-- The code makes an empty map and fills it; the evaluator has all entries at once. -/
theorem map_refines {pairs : List (Expr × Expr)} (h : ∀ p ∈ pairs, Simulated p.1 ∧ Simulated p.2)
    (hm : Matches before scope s w) :
    ends code (expr (.map pairs)) (Refines before (.map pairs) w) scope s := by
  rw [expr]
  refine wp_bind (wp_mono (entries_refines h hm) ?_)
  rintro os mid t₁ _ ⟨w₁, hm₁, _, hlt, _, heval⟩
  refine wp_bind (into_ends fun effect he => ?_)
  obtain rfl := Except.ok.inj he
  refine ⟨_, rfl, ?_⟩
  -- Keys and values are in older registers than the map.
  have hold : ∀ r < mid.registers,
      ∀ v, (t₁.wrote mid.registers v).registers.get? r = t₁.registers.get? r :=
    fun r hr v => wrote_get?_of_ne (Nat.ne_of_lt hr)
  have hempty : (Value.emptyMap (commonKind (os.map Prod.snd))).bare = .map .any [] := by
    simp [Value.emptyMap]
  refine wp_bind (wp_mono (putEntries_refines hm₁.wrote_fresh (Nat.lt_succ_self _)
    (fun x b hb => Nat.ne_of_lt (hm₁.wf.lt (x := x) hb)) (fun p hp =>
      ⟨Nat.ne_of_lt (hlt p hp).1, Nat.ne_of_lt (hlt p hp).2⟩) (wrote_get?_self _ _ _) hempty) ?_)
  rintro _ after t₂ _ ⟨hm₂, values, new, hvalues, hnew, hbare⟩
  refine wp_pure ⟨w₁, ?_, hm₂⟩
  have hread : os.map (fun o => (t₁.registers.get? o.1.register, t₁.registers.get? o.2.register)) =
      values.map (fun p => (some p.1, some p.2)) := by
    rw [← hvalues]
    refine List.map_congr_left fun o ho => ?_
    rw [hold _ (hlt o ho).1, hold _ (hlt o ho).2]
  rw [hnew, Option.map_some, hbare]
  exact Expr.eval_map_eq_some_iff.2 ⟨_, heval values hread, rfl⟩

/-- A call of `print` leaves its register empty, and the evaluator has no value for it either. -/
theorem call_refines {name : String} {args : List Expr} (h : ∀ e ∈ args, Simulated e)
    (hm : Matches before scope s w) :
    ends code (expr (.call name args)) (Refines before (.call name args) w) scope s := by
  rcases call_cases name args with ⟨rfl, heq⟩ | ⟨arg, rfl, rfl, heq⟩ | ⟨e, heq⟩
  · rw [heq]
    refine wp_bind (wp_mono (exprs_refines h hm) ?_)
    rintro os mid t₁ _ ⟨w₁, hm₁, _, _, heval⟩
    refine wp_bind
      (wp_print (fun _ => trivial) (fun _ _ => trivial) trivial fun values sink hvalues hsink => ?_)
    rw [List.map_map] at hvalues
    have hargs := heval values hvalues
    refine wp_bind
      (wp_fresh (wp_pure ⟨{ w₁ with output := w₁.output ++ printedLine values }, ?_, ?_⟩))
    · -- The register of the call is the next one to be issued, which is empty.
      have hempty : t₁.registers.get? mid.registers = none := hm₁.bound.vacant (Nat.le_refl _)
      simp only [hempty, Option.map_none, Expr.eval, Eval.call, Eval.bind_eq_some_iff]
      refine ⟨_, w₁, hargs, ?_⟩
      simp only [if_pos, Eval.bind_eq_some_iff, Eval.print_eq_some_iff, Eval.pure_eq_some_iff,
        Prod.mk.injEq, true_and, printedLine_bare]
      exact ⟨(), _, rfl, rfl⟩
    · have hfresh := hm₁.since (.fresh hm₁.wf)
      refine ⟨hfresh.bound.of_registers_eq rfl, hfresh.unbound, ?_⟩
      rw [hsink, hm₁.output, List.append_assoc]
      simp [Utf8.encode]
  · rw [heq]
    refine wp_bind (wp_mono (h arg List.mem_cons_self hm) ?_)
    rintro o mid t₁ _ ⟨⟨w₁, heval, hm₁⟩, _, _⟩
    refine wp_bind (wp_checkContainer (into_ends fun effect he => ?_))
    obtain ⟨v, size, hv, hsize, rfl⟩ := Instruction.effect_len he
    rw [hv, Option.map_some] at heval
    refine ⟨_, rfl, .fresh hm₁ ?_⟩
    rw [Value.bare_number]
    exact Expr.eval_len heval (congrArg Except.toOption (Value.size_bare hsize))
  · rw [heq]
    exact wp_fail

/-! ### The cases of an expression -/

theorem literal_refines (v : Value) (hm : Matches before scope s w) :
    ends code (expr (.literal v)) (Refines before (.literal v) w) scope s := by
  rw [expr]
  refine into_ends fun effect he => ?_
  obtain rfl := Except.ok.inj he
  exact ⟨v, rfl, .fresh hm (by simp [Expr.eval])⟩

theorem ident_refines (name : String) (hm : Matches before scope s w) :
    ends code (expr (.ident name)) (Refines before (.ident name) w) scope s := by
  rw [expr]
  refine wp_bind (wp_find? ?_)
  cases hb : scope.find? name with
  | none => exact wp_fail
  | some b =>
    obtain ⟨v, hv, hvar⟩ := hm.bound.holds hb
    refine wp_pure ⟨w, ?_, hm⟩
    rw [hv, Option.map_some]
    exact Expr.eval_ident_eq_some_iff.2 ⟨_, hvar, rfl, rfl⟩

/-- Two operands and what is computed from them. The left one is read back behind the right one,
which has left it alone. -/
theorem operands_refine {e left right : Expr} {combine : Operand → Operand → Emit Operand}
    (hl : Simulated left) (hr : Simulated right)
    (h : ∀ {l r : Operand} {after : Scope} {t : State} {w₁ w₂ : World}, Matches before after t w₂ →
      (∀ a, t.registers.get? l.register = some a → left.eval w = some (some a.bare, w₁)) →
      (∀ b, t.registers.get? r.register = some b → right.eval w₁ = some (some b.bare, w₂)) →
      ends code (combine l r) (Refines before e w) after t) (hm : Matches before scope s w) :
    ends code (expr left >>= fun l => expr right >>= fun r => combine l r)
      (Refines before e w) scope s := by
  refine wp_bind (wp_mono (hl hm) ?_)
  rintro l mid t₁ _ ⟨⟨w₁, hleft, hm₁⟩, _, hres⟩
  refine wp_bind (wp_mono (hr hm₁) ?_)
  rintro r after t₂ _ ⟨⟨w₂, hright, hm₂⟩, hran, _⟩
  have hkept : ∀ a, t₂.registers.get? l.register = some a →
      left.eval w = some (some a.bare, w₁) := by
    intro a ha
    rw [hran.below hres.lt] at ha
    rw [hleft, ha, Option.map_some]
  refine h hm₂ hkept fun b hb => ?_
  rw [hright, hb, Option.map_some]

theorem element_refines {base key : Expr} (hb : Simulated base) (hk : Simulated key)
    (hm : Matches before scope s w) :
    ends code (expr (.element base key)) (Refines before (.element base key) w) scope s := by
  rw [expr]
  refine operands_refine hb hk (fun {_ _ _ _ w₁ w₂} hm₂ hbase hkey => ?_) hm
  refine get_ends fun kind c k v hc hk hat => .fresh hm₂ ?_
  exact Expr.eval_element_eq_some_iff.2 ⟨_, _, _, w₁, hbase c hc, hkey k hk, hat, rfl⟩

theorem array_refines {items : List Expr} (h : ∀ e ∈ items, Simulated e)
    (hm : Matches before scope s w) :
    ends code (expr (.array items)) (Refines before (.array items) w) scope s := by
  rw [expr]
  refine wp_bind (wp_mono (exprs_refines h hm) ?_)
  rintro os mid t₁ _ ⟨w₁, hm₁, _, _, heval⟩
  refine into_ends fun effect he => ?_
  obtain ⟨values, hvalues, rfl⟩ := Instruction.effect_makeArray he
  refine ⟨_, rfl, .fresh hm₁ ?_⟩
  rw [List.map_map] at hvalues
  rw [Value.bare_array]
  exact Expr.eval_array_eq_some_iff.2 ⟨_, heval values hvalues, rfl⟩

theorem unary_refines (op : UnaryOp) {operand : Expr} (h : Simulated operand)
    (hm : Matches before scope s w) :
    ends code (expr (.unary op operand)) (Refines before (.unary op operand) w) scope s := by
  rw [expr]
  refine wp_bind (wp_mono (h hm) ?_)
  rintro o mid t₁ _ ⟨⟨w₁, heval, hm₁⟩, _, _⟩
  refine negation_ends fun kind a v ha hv => .fresh hm₁ ?_
  rw [ha, Option.map_some] at heval
  exact Expr.eval_unary_eq_some_iff.2 ⟨_, _, heval, hv, rfl⟩

theorem arith_refines (op : Arith) {left right : Expr} (hl : Simulated left) (hr : Simulated right)
    (hm : Matches before scope s w) :
    ends code (expr (.binary left (.arith op) right))
      (Refines before (.binary left (.arith op) right) w) scope s := by
  rw [expr]
  refine operands_refine hl hr (fun {_ _ _ _ w₁ w₂} hm₂ hleft hright => ?_) hm
  refine arith_ends fun kind a b v ha hb hv => .fresh hm₂ ?_
  exact Expr.eval_arith_eq_some_iff.2 ⟨_, _, _, w₁, hleft a ha, hright b hb, hv, rfl⟩

theorem relation_refines (op : Relation) {left right : Expr} (hl : Simulated left)
    (hr : Simulated right) (hm : Matches before scope s w) :
    ends code (expr (.binary left (.relation op) right))
      (Refines before (.binary left (.relation op) right) w) scope s := by
  rw [expr]
  refine operands_refine hl hr (fun {_ _ _ _ w₁ w₂} hm₂ hleft hright => ?_) hm
  refine into_ends fun effect he => ?_
  obtain ⟨a, b, holds, ha, hb, hv, rfl⟩ := Instruction.effect_relate he
  refine ⟨_, rfl, .fresh hm₂ ?_⟩
  have hholds := congrArg Except.toOption (Value.relation_bare hv)
  rw [Value.bare_bool]
  exact Expr.eval_relation_eq_some_iff.2 ⟨_, _, _, w₁, hleft a ha, hright b hb, hholds, rfl⟩

theorem and_refines {left right : Expr} (hl : Simulated left) (hr : Simulated right)
    (hfree : right.AssignmentFree) (hm : Matches before scope s w) :
    ends code (expr (.binary left .and right))
      (Refines before (.binary left .and right) w) scope s := by
  rw [expr]
  refine logical_refines hl hr hfree branches_jumpUnless ?_ ?_ hm
  · intro w a w₁ heval hfalse
    exact Expr.eval_and_eq_some_iff.2 ⟨a, w₁, heval, Or.inl ⟨hfalse, rfl, rfl⟩⟩
  · intro w a w₁ b w₂ heval htrue hright
    exact Expr.eval_and_eq_some_iff.2 ⟨a, w₁, heval, Or.inr ⟨by simpa using htrue, b, hright, rfl⟩⟩

theorem or_refines {left right : Expr} (hl : Simulated left) (hr : Simulated right)
    (hfree : right.AssignmentFree) (hm : Matches before scope s w) :
    ends code (expr (.binary left .or right))
      (Refines before (.binary left .or right) w) scope s := by
  rw [expr]
  refine logical_refines hl hr hfree branches_jumpIf ?_ ?_ hm
  · intro w a w₁ heval htrue
    exact Expr.eval_or_eq_some_iff.2 ⟨a, w₁, heval, Or.inl ⟨htrue, rfl, rfl⟩⟩
  · intro w a w₁ b w₂ heval hfalse hright
    exact Expr.eval_or_eq_some_iff.2 ⟨a, w₁, heval, Or.inr ⟨by simpa using hfalse, b, hright, rfl⟩⟩

theorem group_refines {inner : Expr} (h : Simulated inner) (hm : Matches before scope s w) :
    ends code (expr (.group inner)) (Refines before (.group inner) w) scope s := by
  rw [expr]
  refine wp_mono (h hm) ?_
  rintro o after t _ ⟨⟨w₁, heval, hm₁⟩, _, _⟩
  exact ⟨w₁, by rw [Expr.eval_group, heval], hm₁⟩

/-- The code of an expression without assignments agrees with the evaluator. -/
theorem expr_refines {e : Expr} (he : e.AssignmentFree) : Simulated e := by
  -- On the expression, with a case for each constructor and each operator.
  induction e using Expr.induct with
  | literal v => exact simulated_of he (literal_refines v)
  | ident name => exact simulated_of he (ident_refines name)
  | element base key ihb ihk =>
    obtain ⟨_, hbase, hkey⟩ := Expr.all_element_iff.1 he
    exact simulated_of he (element_refines (ihb hbase) (ihk hkey))
  | array items ih =>
    have hitems := (Expr.all_array_iff.1 he).2
    exact simulated_of he (array_refines fun e hmem => ih e hmem (hitems e hmem))
  | map entries ih =>
    have hentries := (Expr.all_map_iff.1 he).2
    exact simulated_of he
      (map_refines fun p hp => ⟨(ih p hp).1 (hentries p hp).1, (ih p hp).2 (hentries p hp).2⟩)
  | call name args ih =>
    have hargs := (Expr.all_call_iff.1 he).2
    exact simulated_of he (call_refines fun e hmem => ih e hmem (hargs e hmem))
  | group inner ih => exact simulated_of he (group_refines (ih (Expr.all_group_iff.1 he).2))
  | unary op operand ih => exact simulated_of he (unary_refines op (ih (Expr.all_unary_iff.1 he).2))
  | binary left op right ihl ihr =>
    obtain ⟨hself, hleft, hright⟩ := Expr.all_binary_iff.1 he
    cases op with
    | arith op => exact simulated_of he (arith_refines op (ihl hleft) (ihr hright))
    | relation op => exact simulated_of he (relation_refines op (ihl hleft) (ihr hright))
    | and => exact simulated_of he (and_refines (ihl hleft) (ihr hright) hright)
    | or => exact simulated_of he (or_refines (ihl hleft) (ihr hright) hright)
    | assign => cases hself
    | update op => cases hself

/-! ## Assignments -/

/-- Both ways of assigning a name come to the same: its register holds the value. -/
theorem assign_refines {name : String} {value : Operand} (hm : Matches before scope s w) :
    ends code (assign name value) (fun _ after t => ∃ v, s.registers.get? value.register = some v ∧
      Matches before after t (w.set name v.bare)) scope s := by
  -- The copy is the same whether or not the variable is new.
  have hcopy : ∀ {register : Register} {scope' : Scope},
      (∀ v, Matches before (scope'.bind name ⟨register, value.kind⟩) (s.wrote register v)
        (w.set name v.bare)) → ends code (do
        Emit.instruction (.copy value.register register)
        Emit.bindName name ⟨register, value.kind⟩)
        (fun _ after t => ∃ v, s.registers.get? value.register = some v ∧
          Matches before after t (w.set name v.bare)) scope' s := by
    intro register scope' hafter
    refine wp_bind (wp_write (fun _ => trivial) (fun _ _ => trivial) fun effect he => ?_)
    obtain ⟨v, hv, rfl⟩ := Instruction.effect_copy he
    exact ⟨_, v, rfl, wp_bindName ⟨v, hv, hafter v⟩⟩
  refine wp_bind (wp_find? ?_)
  cases hb : scope.find? name with
  | none => exact wp_bind (wp_fresh (hcopy fun _ => hm.bindNew hb))
  | some b => exact wp_bind (wp_target (hcopy fun _ => hm.rebind hb rfl))

/-- A store updates the variable at the root of its target along the path of its keys. -/
theorem store_refines {target : Expr} (ht : target.AssignmentFree) {value : Operand}
    (hm : Matches before scope s w) (hlt : value.register < scope.registers) :
    ends code (store target value) (fun _ after t => ∃ v name keys w₁,
      s.registers.get? value.register = some v ∧ target.path w = some ((name, keys), w) ∧
      Eval.assign name keys v.bare w = some ((), w₁) ∧ Matches before after t w₁) scope s := by
  -- On the target. A copy of a container is stored in its turn, and the path of that store is
  -- shorter by a key.
  induction target using Expr.induct generalizing scope s value with
  | ident name =>
    refine wp_mono (assign_refines hm) ?_
    rintro _ after t _ ⟨v, hv, hm'⟩
    exact ⟨v, name, [], _, hv, by simp [Expr.path], rfl, hm'⟩
  | element base key ihb _ =>
    obtain ⟨_, hbase, hkey⟩ := Expr.all_element_iff.1 ht
    rw [store]
    refine wp_bind (wp_mono (expr_refines hbase hm) ?_)
    rintro c mid t₁ _ ⟨⟨w₁, hb, hm₁⟩, hran₁, hres₁⟩
    refine wp_bind (wp_mono (expr_refines hkey hm₁) ?_)
    rintro k after t₂ _ ⟨⟨w₂, hk, hm₂⟩, hran₂, _⟩
    refine wp_bind (put_ends fun kind cv kv v new hc hkv hv hput => ?_)
    -- What the instruction finds is what the evaluator computes.
    have hres := hres₁.since hran₂.since
    rw [hran₂.below hres₁.lt] at hc
    rw [hc, Option.map_some] at hb
    rw [hkv, Option.map_some] at hk
    obtain rfl := Expr.eval_pure hbase hb
    obtain rfl := Expr.eval_pure hkey hk
    rw [hran₂.below (Nat.lt_of_lt_of_le hlt hran₁.since.le), hran₁.below hlt] at hv
    have hpath : ∀ {name keys}, base.path w₂ = some ((name, keys), w₂) →
        (Expr.element base key).path w₂ = some ((name, keys ++ [kv.bare]), w₂) := by
      intro name keys hp
      simp only [Expr.path, Eval.bind_eq_some_iff, Eval.value_eq_some_iff, Eval.pure_eq_some_iff]
      exact ⟨_, _, hp, _, _, hk, rfl⟩
    have hstore : ∀ {name keys w₃}, base.path w₂ = some ((name, keys), w₂) →
        Eval.assign name keys new.bare w₂ = some ((), w₃) →
        Eval.assign name (keys ++ [kv.bare]) v.bare w₂ = some ((), w₃) := by
      intro name keys w₃ hp hassign
      obtain ⟨keys', root, hp', hvar, hfollow⟩ := Expr.path_of_eval hbase (Expr.root?_of_path hp) hb
      obtain rfl : keys = keys' := by
        rw [hp] at hp'
        simpa using hp'
      exact Eval.assign_concat hvar hfollow hput hassign
    cases base with
    | ident name =>
      obtain ⟨b, hfind, hreg⟩ := hres.named rfl
      have hp : (Expr.ident name).path w₂ = some ((name, []), w₂) := by simp [Expr.path]
      refine wp_bindName ⟨v, name, [kv.bare], w₂.set name new.bare, hv, hpath hp, hstore hp rfl, ?_⟩
      rw [← hreg]
      exact hm₂.rebind hfind rfl
    | element inner innerKey =>
      have hm₃ : Matches before after (t₂.wrote c.register new) w₂ :=
        hm₂.wrote hres.lt (hres.unnamed rfl).2
      refine wp_mono (ihb hbase hm₃ hres.lt) ?_
      rintro _ last t₃ _ ⟨u, name, keys, w₃, hu, hp, hassign, hm'⟩
      obtain rfl : new = u := Option.some.inj ((wrote_get?_self _ _ _).symm.trans hu)
      exact ⟨v, name, keys ++ [kv.bare], w₃, hv, hpath hp, hstore hp hassign, hm'⟩
    | _ => exact wp_fail
  | _ => exact wp_fail

/-- A statement. -/
theorem statement_refines {e : Expr} (he : e.AssignsAtRoot) (hm : Matches before scope s w) :
    ends code (expr e) (fun _ after t => ∃ result w₁, e.eval w = some (result, w₁) ∧
      Matches before after t w₁) scope s := by
  by_cases hroot : e.isAssignment = false
  · refine wp_mono (expr_refines (Expr.all_iff.2 ⟨hroot, he⟩) hm) ?_
    rintro o after t _ ⟨⟨w₁, heval, hm₁⟩, _, _⟩
    exact ⟨_, w₁, heval, hm₁⟩
  · cases e with
    | binary target op value =>
      obtain ⟨ht, hv⟩ : target.AssignmentFree ∧ value.AssignmentFree := Expr.forall_two_iff.1 he
      cases op with
      | assign =>
        rw [expr]
        split
        · refine wp_bind (wp_mono (expr_refines hv hm) ?_)
          rintro o mid t₁ _ ⟨⟨w₁, heval, hm₁⟩, _, hres⟩
          refine wp_bind (wp_mono (store_refines ht hm₁ hres.lt) ?_)
          rintro _ after t₂ _ ⟨v, name, keys, w₂, hget, hpath, hassign, hm₂⟩
          refine wp_pure ⟨some v.bare, w₂, ?_, hm₂⟩
          rw [hget, Option.map_some] at heval
          simp only [Expr.eval, Eval.bind_eq_some_iff, Eval.value_eq_some_iff,
            Eval.pure_eq_some_iff]
          exact ⟨_, w₁, heval, _, w₁, hpath, (), w₂, hassign, rfl⟩
        · exact wp_fail
      | update op =>
        rw [expr]
        split
        · refine wp_bind (wp_mono (expr_refines ht hm) ?_)
          rintro l mid t₁ _ ⟨⟨w₁, hold, hm₁⟩, _, hres⟩
          refine wp_bind (wp_mono (expr_refines hv hm₁) ?_)
          rintro r after t₂ _ ⟨⟨w₂, hval, hm₂⟩, hran, _⟩
          refine wp_bind (arith_ends fun kind a b v ha hb harith => ?_)
          rw [hran.below hres.lt] at ha
          rw [ha, Option.map_some] at hold
          rw [hb, Option.map_some] at hval
          -- The target has been read, so its keys have the same values when it is written.
          obtain rfl := Expr.eval_pure ht hold
          obtain rfl := Expr.eval_pure hv hval
          refine wp_bind (wp_mono (store_refines ht hm₂.wrote_fresh (Nat.lt_succ_self _)) ?_)
          rintro _ last t₃ _ ⟨u, name, keys, w₃, hget, hpath, hassign, hm₃⟩
          obtain rfl : v = u := Option.some.inj ((wrote_get?_self _ _ _).symm.trans hget)
          refine wp_pure ⟨some v.bare, w₃, ?_, hm₃⟩
          obtain ⟨keys', root, hpath', hvar, hfollow⟩ :=
            Expr.path_of_eval ht (Expr.root?_of_path hpath) hold
          obtain rfl : keys = keys' := by
            rw [hpath] at hpath'
            simpa using hpath'
          simp only [Expr.eval, Eval.read, Eval.bind_eq_some_iff, Eval.value_eq_some_iff,
            Eval.of_eq_some_iff, Eval.lookup_eq_some_iff, Eval.pure_eq_some_iff]
          exact ⟨_, _, hpath, _, _, ⟨root, _, ⟨hvar, rfl⟩, hfollow, rfl⟩, _, _, hval, _, _,
            ⟨harith, rfl⟩, (), w₃, hassign, rfl⟩
        · exact wp_fail
      | _ => exact absurd rfl hroot
    | _ => exact absurd rfl hroot

end Lowering

/-! ## Programs -/

namespace Program

/-- **Refinement.** A program whose assignments stand at the roots of its statements, and whose run
ends without an error, does what the evaluator says: it has printed the same text, and each
variable's register holds the variable's value, up to element kinds. -/
theorem run_refines_eval (p : Program) (routine : Routine) (limit : Option Nat) (sink : Sink)
    (registers : Registers) (hp : ∀ st ∈ p, st.expr.AssignsAtRoot) (hlower : p.lower = .ok routine)
    (hrun : (routine.run limit sink).result = .ok registers) :
    ∃ w all, p.eval World.initial = some w ∧
      (routine.run limit sink).output = sink.taken.toList ++ Utf8.encode w.output ∧
      Lowering.statements 0 .empty p = .ok all ∧
      (∀ x b, all.scope.find? x = some b →
        ∃ v, registers.get? b.register = some v ∧ w.vars x = some v.bare) ∧
      ∀ x, all.scope.find? x = none → w.vars x = none := by
  obtain ⟨all, hall, hr⟩ := Lowering.statements_of_lower hlower
  have hleads := Program.leads (I := fun _ => True) (E := fun _ _ => True) sink
    (J := fun rest scope s => (∀ st ∈ rest, st.expr.AssignsAtRoot) ∧
      ∃ w, p.eval World.initial = Program.eval rest w ∧ Matches sink.taken.toList scope s w)
    hall hr ?_ ?_
  · obtain ⟨t, hreach, hend, rfl, hout⟩ := Routine.run_ok hrun
    have hfinal :=
      hleads.finishes hreach hend fun u hu => List.getElem?_eq_none (Nat.le_of_eq hu.1.symm)
    obtain ⟨_, _, w, hw, hm⟩ := hfinal
    refine ⟨w, all, hw, ?_, hall, fun x b hb => hm.bound.holds hb, fun x hx => hm.unbound hx⟩
    rw [hout, hm.output]
  · rintro st rest scope s ⟨hroots, w, hw, hm⟩
    refine wp_mono (Lowering.statement_refines (hroots st List.mem_cons_self) hm) ?_
    rintro o after t _ ⟨result, w₁, heval, hm₁⟩
    refine ⟨fun st' hst' => hroots st' (List.mem_cons_of_mem _ hst'), w₁, ?_, hm₁⟩
    rw [hw, Program.eval, heval, Option.bind_some]
  · exact ⟨hp, World.initial, rfl, .initial sink routine⟩

/-- `x = [1, 2]`, `x[0] += 3`, `print(x)` -/
def itemUpdate : Program :=
  [⟨.binary (.ident "x") .assign (.array [.literal (.number ⟨1, 0⟩), .literal (.number ⟨2, 0⟩)]),
    default⟩,
    ⟨.binary (.element (.ident "x") (.literal (.number ⟨0, 0⟩))) (.update .add)
      (.literal (.number ⟨3, 0⟩)), default⟩, ⟨.call "print" [.ident "x"], default⟩]

/-- The run of `itemUpdate` ends without an error, so the evaluator has the values of its
variables. -/
theorem run_refines_eval_itemUpdate :
    ∃ routine registers, itemUpdate.lower = .ok routine ∧
      (routine.run none (.new none)).result = .ok registers ∧
      ∃ w all, itemUpdate.eval World.initial = some w ∧
        (routine.run none (.new none)).output = (Sink.new none).taken.toList ++
          Utf8.encode w.output ∧ Lowering.statements 0 .empty itemUpdate = .ok all ∧
        (∀ x b, all.scope.find? x = some b →
          ∃ v, registers.get? b.register = some v ∧ w.vars x = some v.bare) ∧
        ∀ x, all.scope.find? x = none → w.vars x = none := by
  have hlower : itemUpdate.lower = .ok ⟨[.load (.number ⟨1, 0⟩) 0, .load (.number ⟨2, 0⟩) 1,
      .makeArray .number [0, 1] 2, .copy 2 3, .load (.number ⟨0, 0⟩) 4, .getItem 3 4 5,
      .load (.number ⟨3, 0⟩) 6, .arith .add 5 6 7, .load (.number ⟨0, 0⟩) 8, .setItem 3 8 7,
      .print [3]], 10⟩ := by
    cbv
  have hroots : ∀ st ∈ itemUpdate, st.expr.AssignsAtRoot := by
    simp [itemUpdate, Expr.AssignsAtRoot, Expr.parts, Expr.nodesOf, Expr.isAssignment]
  exact ⟨_, _, hlower, rfl, run_refines_eval _ _ _ _ _ hroots hlower rfl⟩

end Program

end LineScript
