import LineScript.Proofs.Code.Sites

/-!
# What stands around a site

The code of a task is a stretch of the code of the program. `Site.surrounded` says what the rest of
the program does to the registers, as far as it matters for the task: the code in front of it writes
registers that were issued by then, and the code behind it leaves the registers that were issued
inside alone, unless they belong to variables (`Outside`). So a register that was issued inside and
belongs to no variable is the task's own.

There is one exception. The container of a target is computed like any other element and is then
stored into, so the result of an element may be written once more behind its code; but not what came
before the result.

The scope at a site grows into the scope of the whole program, which is why statements about the
variables of the program can be made at the end, once and for all.
-/

set_option autoImplicit false

namespace LineScript

open State Emit

namespace Lowering

variable {p : Program} {task child : Task} {n m : Nat} {scope mid after final : Scope}
    {code : List Instruction}

/-! ## Behind the operands -/

/-- What an expression does with its operands writes no register that was issued before, but those
of variables. -/
theorem finish_grows {e : Expr} {os : List Operand} {base : Scope} :
    grows (fun _ => True) base (finish e os) (fun _ _ => True) n scope := by
  have hany : ∀ {x : Emit Operand} {Q : Operand → Scope → Prop},
      grows (fun _ => True) base x Q n scope →
      grows (fun _ => True) base x (fun _ _ => True) n scope :=
    fun hx => grows_mono hx fun _ _ _ _ => trivial
  have hstore : ∀ (target : Expr) (v : Operand) (stop : Nat) (sc : Scope),
      grows (fun _ => True) base (do store target v; pure v) (fun _ _ => True) stop sc := by
    intro target v stop sc
    refine grows_bind
      (grows_mono ((expr_grows target).store target.assignsOnly_true fun _ _ => trivial) ?_)
    exact fun _ _ _ _ _ => grows_pure trivial
  cases e with
  | literal v => exact hany (into_grows fun _ => ⟨rfl, rfl⟩)
  | ident name =>
    have hname : grows (fun _ => True) base (expr (.ident name))
        (fun o after => scope.find? name = some o ∧ after = scope) n scope := ident_grows
    rw [expr] at hname
    exact hany hname
  | group inner =>
    rcases os with _ | ⟨o, _ | _⟩
    · exact grows_fail
    · exact grows_pure trivial
    · exact grows_fail
  | array items => exact hany (into_grows fun _ => ⟨rfl, rfl⟩)
  | map entries =>
    refine grows_bind (grows_mono (into_grows fun _ => ⟨rfl, rfl⟩) ?_)
    intro o mid _ ho _
    refine grows_bind (grows_mono (putEntries_grows ho.lt (ho.unnamed rfl).1) ?_)
    exact fun _ _ _ _ _ => grows_pure trivial
  | element container key =>
    rcases os with _ | ⟨c, _ | ⟨k, _ | _⟩⟩
    · exact grows_fail
    · exact grows_fail
    · exact hany get_grows
    · exact grows_fail
  | call name args =>
    simp only [finish]
    split
    · refine grows_bind
        (grows_instruction rfl (fun r hr => absurd hr (Option.some_ne_none r).symm) fun _ => ?_)
      exact grows_bind (grows_fresh fun _ => grows_pure trivial)
    · rcases os with _ | ⟨o, _ | _⟩
      · exact grows_fail
      · refine grows_bind (grows_mono checkContainer_grows ?_)
        rintro _ _ _ rfl _
        exact grows_mono (into_grows fun _ => ⟨rfl, rfl⟩) fun _ _ _ _ => trivial
      · exact grows_fail
  | unary op operand =>
    rcases os with _ | ⟨o, _ | _⟩
    · exact grows_fail
    · exact hany negation_grows
    · exact grows_fail
  | binary left op right =>
    rcases os with _ | ⟨l, _ | ⟨r, _ | _⟩⟩
    · cases op <;> exact grows_fail
    · cases op with
      | and =>
        exact hany (connect_grows (fun _ _ => ⟨rfl, rfl⟩) (expr_grows right) right.assignsOnly_true)
      | or =>
        exact hany (connect_grows (fun _ _ => ⟨rfl, rfl⟩) (expr_grows right) right.assignsOnly_true)
      | assign => exact hstore left l n scope
      | _ => exact grows_fail
    · cases op with
      | arith op => exact hany arith_grows
      | relation op => exact hany (into_grows fun _ => ⟨rfl, rfl⟩)
      | update op =>
        exact grows_bind (grows_mono arith_grows fun v mid _ _ stop => hstore left v stop mid)
      | _ => exact grows_fail
    · cases op <;> exact grows_fail

/-- What a store does behind the operands of its target. The container takes the value; it is a
variable, which is bound anew, or a copy, which is stored in its turn. -/
theorem store_rest_grown {base key : Expr} {v c k : Operand} {z : Emitted Unit} (hwf : scope.WF)
    (hc : ∀ name, base = .ident name → ∃ b, scope.find? name = some b ∧ b.register = c.register)
    (h : (Task.store (.element base key) v).rest [c, k] n scope = .ok z) :
    Scope.Since (fun _ => True) scope z.scope ∧
      ∀ i ∈ z.code, ∀ r, i.dest? = some r → r = c.register ∨ scope.Owns (fun _ => True) r := by
  obtain ⟨x, y, hx, hy, rfl⟩ := bind_eq_ok h
  obtain ⟨hscope, hregister, i, hcode, hdest⟩ := put_code hx
  have hy' : Scope.Since (fun _ => True) scope y.scope ∧
      ∀ i ∈ y.code, ∀ r, i.dest? = some r → scope.Owns (fun _ => True) r := by
    cases base with
    | ident name =>
      obtain rfl := Except.ok.inj hy
      obtain ⟨b, hb, hbc⟩ := hc name rfl
      rw [hscope]
      exact ⟨.rebind hwf trivial hb (hregister.trans hbc.symm), fun j hj => nomatch hj⟩
    | _ =>
      rw [hscope] at hy
      have hgrown := store_grown hwf hy
      exact ⟨hgrown.since, fun i hi r hr => (hgrown.dests i hi r hr).2⟩
  refine ⟨hy'.1, fun j hj r hr => ?_⟩
  rw [hcode] at hj
  rcases List.mem_cons.1 hj with rfl | hj
  · exact Or.inl (Option.some.inj (hr.symm.trans hdest))
  · exact Or.inr (hy'.2 j hj r hr)

theorem exprs_ne_nil {e : Expr} {rest : List Expr} {b : Emitted (List Operand)}
    (h : exprs (e :: rest) n scope = .ok b) : ∃ o os, b.value = o :: os := by
  rw [exprs] at h
  obtain ⟨x, y, _, hy, rfl⟩ := bind_eq_ok h
  obtain ⟨u, v, _, hv, rfl⟩ := bind_eq_ok hy
  obtain rfl := Except.ok.inj hv
  exact ⟨_, _, rfl⟩

/-- What a task does behind its operands writes no register that was issued before, but those of
variables and that of a container that is stored into. -/
theorem rest_grown {x : Emitted (List Operand)} {z : Emitted Unit} (hwf : scope.WF)
    (hx : exprs task.operands n scope = .ok x) (hz : task.rest x.value m x.scope = .ok z) :
    Scope.Since (fun _ => True) x.scope z.scope ∧
      ∀ i ∈ z.code, ∀ r, i.dest? = some r → x.scope.Owns (fun _ => True) r ∨ ∃ base key v c k,
        task = .store (.element base key) v ∧ x.value = [c, k] ∧ c.register = r := by
  have hxwf : x.scope.WF :=
    (exprs_grown (A := fun _ => True) (fun e _ => e.assignsOnly_true) hwf hx).1.since.wf
  -- Nothing else than a store into an element needs to know about its operands.
  have hplain : Grown (fun _ => True) x.scope m x.scope z →
      Scope.Since (fun _ => True) x.scope z.scope ∧
      ∀ i ∈ z.code, ∀ r, i.dest? = some r → x.scope.Owns (fun _ => True) r ∨
        ∃ base key v c k, task = .store (.element base key) v ∧ x.value = [c, k] ∧ c.register = r :=
    fun hgrown => ⟨hgrown.since, fun i hi r hr => Or.inl (hgrown.dests i hi r hr).2⟩
  cases task with
  | value e =>
    obtain ⟨y, u, hy, hu, rfl⟩ := bind_eq_ok hz
    obtain rfl := Except.ok.inj hu
    obtain ⟨hgrown, _⟩ := finish_grows (.refl hxwf) y hy
    refine hplain ?_
    rw [List.append_nil]
    exact ⟨hgrown.since, hgrown.dests, hgrown.jumps⟩
  | store target v =>
    cases target with
    | element base key =>
      obtain ⟨c, k, stop, mid, hvalue, hc, hk⟩ := yields_of_exprs_two ⟨x.code, hx, rfl⟩
      obtain ⟨hsince, hres⟩ := expr_since base.assignsOnly_true hwf hc
      obtain ⟨hsince', _⟩ := expr_since key.assignsOnly_true hsince.wf hk
      rw [hvalue] at hz
      have hbound : ∀ name, base = .ident name →
          ∃ b, x.scope.find? name = some b ∧ b.register = c.register :=
        fun name hname => (hres.since hsince').named (by rw [hname]; rfl)
      obtain ⟨hgrown, hdests⟩ := store_rest_grown hxwf hbound hz
      refine ⟨hgrown, fun i hi r hr => ?_⟩
      rcases hdests i hi r hr with rfl | howns
      · exact Or.inr ⟨base, key, v, c, k, rfl, hvalue, rfl⟩
      · exact Or.inl howns
    | _ => exact hplain (store_grown hxwf hz)

/-- An element is found in the register that was issued last. -/
theorem get_registers {c k : Operand} {z : Emitted Operand} (h : get c k n scope = .ok z) :
    z.value.register = scope.registers ∧ z.scope.registers = scope.registers + 1 := by
  have hinto : ∀ {i : Register → Instruction} {kind : Option Kind} {m : Nat} {b : Emitted Operand},
      into i kind m scope = .ok b →
      b.value.register = scope.registers ∧ b.scope.registers = scope.registers + 1 := by
    intro i kind m b hb
    obtain rfl := Except.ok.inj hb
    exact ⟨rfl, rfl⟩
  rw [get.eq_def] at h
  rcases hkind : c.kind with _ | kind
  · simp only [hkind] at h
    exact hinto h
  · cases kind with
    | array element =>
      simp only [hkind] at h
      obtain ⟨x, y, hx, hy, rfl⟩ := bind_eq_ok h
      obtain rfl := checkIndex_code hx
      exact hinto hy
    | _ =>
      simp only [hkind] at h
      exact hinto h

/-- What stands last in the code of an element, and where its value is. -/
theorem element_registers {base key : Expr} {a : Emitted Operand}
    (h : expr (.element base key) n scope = .ok a) :
    a.scope.registers = a.value.register + 1 ∧
      ∃ b, exprs [base, key] n scope = .ok b ∧ b.scope.registers < a.scope.registers := by
  obtain ⟨b, z, hb, hz, rfl⟩ := bind_eq_ok (expr_factors h)
  obtain ⟨x, y, _, _, hos, _⟩ := yields_of_exprs_two ⟨b.code, hb, rfl⟩
  rw [hos] at hz
  obtain ⟨hvalue, hscope⟩ := get_registers hz
  exact ⟨by rw [hvalue, hscope], b, hb, hscope ▸ Nat.lt_succ_self _⟩

/-! ## Surroundings -/

/-- The register is none of those issued for the task, from `scope` to `after`, unless it belongs to
a variable. The result of an element may be stored into. -/
def Outside (task : Task) (scope after : Scope) (r : Register) : Prop :=
  r < scope.registers ∨ after.Owns (fun _ => True) r ∨
    (∃ base key, task = .value (.element base key)) ∧ after.registers = r + 1

/-- The code of a task, with what stands in front of it and behind it. -/
structure Around (code : List Instruction) (final : Scope) (task : Task) (n : Nat) (scope : Scope)
    (a : Emitted Unit) (front behind : List Instruction) : Prop where
  lowered : task.lower n scope = .ok a
  code_eq : code = front ++ a.code ++ behind
  front_lt : ∀ i ∈ front, ∀ r, i.dest? = some r → r < scope.registers
  behind_outside : ∀ i ∈ behind, ∀ r, i.dest? = some r → Outside task scope a.scope r
  since : Scope.Since (fun _ => True) a.scope final

/-- The task is lowered as a part of the code. -/
def Surrounded (code : List Instruction) (final : Scope) (task : Task) (n : Nat)
    (scope : Scope) : Prop :=
  ∃ a front behind, Around code final task n scope a front behind

variable {a : Emitted Unit} {front behind : List Instruction}

/-- From a task to a part of it. -/
theorem Around.inner {c : Emitted Unit} {fore aft : List Instruction}
    (h : Around code final task n scope a front behind) (hc : child.lower m mid = .ok c)
    (hcode : a.code = fore ++ c.code ++ aft) (hle : scope.registers ≤ mid.registers)
    (hfore : ∀ i ∈ fore, ∀ r, i.dest? = some r → r < mid.registers)
    (haft : ∀ i ∈ aft, ∀ r, i.dest? = some r → Outside child mid c.scope r)
    (hsince : Scope.Since (fun _ => True) c.scope a.scope)
    (helement : ∀ base key, task = .value (.element base key) →
      c.scope.registers < a.scope.registers) : Surrounded code final child m mid := by
  refine ⟨c, front ++ fore, aft ++ behind, hc, ?_, ?_, ?_, hsince.trans h.since⟩
  · rw [h.code_eq, hcode]
    simp only [List.append_assoc]
  · intro i hi r hr
    rcases List.mem_append.1 hi with hi | hi
    · exact Nat.lt_of_lt_of_le (h.front_lt i hi r hr) hle
    · exact hfore i hi r hr
  · intro i hi r hr
    rcases List.mem_append.1 hi with hi | hi
    · exact haft i hi r hr
    · -- What lies outside the whole lies outside the part.
      rcases h.behind_outside i hi r hr with hlt | howns | ⟨⟨base, key, htask⟩, hlast⟩
      · exact Or.inl (Nat.lt_of_lt_of_le hlt hle)
      · exact Or.inr (Or.inl (howns.since hsince))
      · have hlt := helement base key htask
        exact Or.inr (Or.inl (Or.inl (by omega)))

/-- What a task adds to the scope it stands in. -/
theorem lower_grown (hwf : scope.WF) (h : task.lower n scope = .ok a) :
    Grown (fun _ => True) scope n scope a := by
  cases task with
  | value e =>
    obtain ⟨x, y, hx, hy, rfl⟩ := bind_eq_ok h
    obtain rfl := Except.ok.inj hy
    rw [List.append_nil]
    obtain ⟨hgrown, _⟩ := expr_grown e.assignsOnly_true hwf hx
    exact ⟨hgrown.since, hgrown.dests, hgrown.jumps⟩
  | store target v => exact store_grown hwf h

/-- From a task to the part that stands last, behind what it depends on. -/
theorem Around.last {α : Type} {x : Emit α} {f : α → Task} {v : α} {stop : Nat}
    (h : Around code final task n scope a front behind)
    (htask : ∀ base key, task ≠ .value (.element base key))
    (hlower : (x >>= fun v => (f v).lower) n scope = .ok a)
    (hgrows : grows (fun _ => True) scope x (fun _ _ => True) n scope) (hwf : scope.WF)
    (hv : x.Yields n scope v stop after) : Surrounded code final (f v) stop after := by
  obtain ⟨piece, hpiece, rfl⟩ := hv
  obtain ⟨b, c, hb, hc, rfl⟩ := bind_eq_ok hlower
  obtain rfl := Except.ok.inj (hpiece.symm.trans hb)
  obtain ⟨hgrown, _⟩ := hgrows (.refl hwf) _ hpiece
  refine h.inner hc (List.append_nil _).symm hgrown.since.le ?_ (fun i hi => nomatch hi) ?_ ?_
  · exact fun i hi r hr => (hgrown.dests i hi r hr).1
  · exact .refl (lower_grown hgrown.since.wf hc).since.wf
  · exact fun base key heq => absurd heq (htask base key)

/-! ## Sites -/

theorem surrounded_statement {earlier later : Program} {st : Statement} {before all : Emitted Unit}
    (hbefore : statements 0 .empty earlier = .ok before)
    (hall : statements 0 .empty (earlier ++ st :: later) = .ok all) :
    Surrounded all.code all.scope (.value st.expr) before.code.length before.scope := by
  obtain ⟨b, others, hb, hothers, rfl⟩ := statements_append hall
  obtain rfl := Except.ok.inj (hbefore.symm.trans hb)
  obtain ⟨c, rest, hc, hrest, rfl⟩ := statements_cons hothers
  rw [Nat.zero_add] at hc
  have hearlier := statements_grown (.refl Scope.empty_wf) hbefore
  have hwf := (expr_grown st.expr.assignsOnly_true hearlier.since.wf hc).1.since.wf
  have hlater := statements_grown (.refl hwf) hrest
  refine ⟨⟨(), c.code, c.scope⟩, before.code, rest.code,
    Task.lower_value hc, ?_, ?_, ?_, hlater.since⟩
  · exact (List.append_assoc _ _ _).symm
  · exact fun i hi r hr => (hearlier.dests i hi r hr).1
  · exact fun i hi r hr => Or.inr (Or.inl (hlater.dests i hi r hr).2)

/-- The container of a target, which is stored into, is a variable or an element. -/
theorem stored_outside {base key : Expr} {v : Operand} {c : Emitted Operand} (hwf : scope.WF)
    (h : store (.element base key) v n scope = .ok a) (hc : expr base n scope = .ok c) :
    Outside (.value base) scope c.scope c.value.register := by
  rcases target_of_store h with ⟨name, rfl⟩ | ⟨inner, innerKey, rfl⟩
  · obtain ⟨b, hb, hreg⟩ := (expr_grown (Expr.ident name).assignsOnly_true hwf hc).2.named rfl
    exact Or.inr (Or.inl (Or.inr ⟨name, b, trivial, hb, hreg⟩))
  · exact Or.inr (Or.inr ⟨⟨inner, innerKey, rfl⟩, (element_registers hc).1⟩)

/-- Operands in front of one of them, the operand itself, and those behind it. -/
theorem exprs_around {e : Expr} {earlier later : List Expr} {x : Emitted (List Operand)}
    (h : exprs (earlier ++ e :: later) n scope = .ok x) :
    ∃ b c d, exprs earlier n scope = .ok b ∧ expr e (n + b.code.length) b.scope = .ok c ∧
      exprs later (n + b.code.length + c.code.length) c.scope = .ok d ∧
      x.value = b.value ++ c.value :: d.value ∧ x.code = b.code ++ c.code ++ d.code ∧
      x.scope = d.scope := by
  obtain ⟨b, y, hb, hy, rfl⟩ := exprs_append h
  rw [exprs] at hy
  obtain ⟨c, w, hc, hw, rfl⟩ := bind_eq_ok hy
  obtain ⟨d, v, hd, hv, rfl⟩ := bind_eq_ok hw
  obtain rfl := Except.ok.inj hv
  exact ⟨b, c, d, hb, hc, hd, rfl, by simp, rfl⟩

theorem Around.operand {e : Expr} {earlier later : List Expr} {os : List Operand}
    {stop : Nat} (h : Around code final task n scope a front behind)
    (hwf : scope.WF) (hops : task.operands = earlier ++ e :: later)
    (hpre : (exprs earlier).Yields n scope os stop after) :
    Surrounded code final (.value e) stop after := by
  obtain ⟨x, z, hx, hz, ha⟩ := bind_eq_ok (Task.factors h.lowered)
  obtain ⟨hrest, hdests⟩ := rest_grown hwf hx hz
  obtain ⟨b, c, d, hb, hc, hd, hvalue, hcode, hscope⟩ := exprs_around (hops ▸ hx)
  obtain ⟨piece, hpiece, rfl⟩ := hpre
  obtain rfl := Except.ok.inj (hpiece.symm.trans hb)
  obtain ⟨hearlier, hlt⟩ :=
    exprs_grown (A := fun _ => True) (fun e _ => e.assignsOnly_true) hwf hpiece
  obtain ⟨hself, _⟩ := expr_grown e.assignsOnly_true hearlier.since.wf hc
  obtain ⟨hlater, _⟩ :=
    exprs_grown (A := fun _ => True) (fun e _ => e.assignsOnly_true) hself.since.wf hd
  have hparts : a.code = piece ++ c.code ++ (d.code ++ z.code) := by
    simp only [ha, hcode, List.append_assoc]
  have hafter : a.scope = z.scope := by rw [ha]
  rw [hscope] at hrest hdests
  refine h.inner (Task.lower_value hc) hparts hearlier.since.le ?_ ?_
    (hafter ▸ hlater.since.trans hrest) ?_
  · exact fun i hi r hr => (hearlier.dests i hi r hr).1
  · intro i hi r hr
    rcases List.mem_append.1 hi with hi | hi
    · exact Or.inr (Or.inl (hlater.dests i hi r hr).2)
    · rcases hdests i hi r hr with howns | ⟨base, key, v, container, k, rfl, hpair, rfl⟩
      · exact Or.inr (Or.inl (howns.since hlater.since))
      · -- A container that is stored into stands in front of the operand, or is the operand.
        rw [hvalue] at hpair
        rcases earlier with _ | ⟨first, earlier⟩
        · obtain ⟨rfl, rfl, rfl⟩ : [] = os ∧ [] = piece ∧ scope = after := by
            simpa [exprs, pure] using hpiece
          obtain ⟨rfl, rfl⟩ : base = e ∧ [key] = later := by simpa [Task.operands] using hops
          obtain ⟨rfl, _⟩ : c.value = container ∧ d.value = [k] := by simpa using hpair
          exact stored_outside hwf h.lowered hc
        · obtain ⟨o, rest, hos⟩ := exprs_ne_nil hpiece
          change os = o :: rest at hos
          subst hos
          obtain ⟨rfl, _⟩ : o = container ∧ rest ++ c.value :: d.value = [k] := by simpa using hpair
          exact Or.inl (hlt o List.mem_cons_self)
  · rintro base key rfl
    obtain ⟨u, w, hu, hw, heq⟩ := bind_eq_ok h.lowered
    obtain rfl := Except.ok.inj hw
    obtain ⟨_, y, hy, hregisters⟩ := element_registers hu
    obtain rfl := Except.ok.inj (hx.symm.trans hy)
    rw [hscope] at hregisters
    rw [heq]
    exact Nat.lt_of_le_of_lt hlater.since.le hregisters

theorem Around.right {left right : Expr} {op : BinaryOp} {l : Operand} {stop : Nat}
    (h : Around code final (.value (.binary left op right)) n scope a front behind) (hwf : scope.WF)
    (hop : op = .and ∨ op = .or) (hl : (expr left).Yields n scope l stop after) :
    Surrounded code final (.value right) (stop + 2)
      { after with registers := after.registers + 1 } := by
  obtain ⟨piece, hpiece, rfl⟩ := hl
  obtain ⟨jump, hjump, b, hb, ha⟩ : ∃ jump : Register → Nat → Instruction,
      (∀ r t, (jump r t).dest? = none) ∧
        ∃ b, connect jump l (expr right) (n + piece.length) after = .ok b ∧
          a = ⟨(), piece ++ b.code, b.scope⟩ := by
    obtain ⟨x, y, hx, hy, rfl⟩ := bind_eq_ok h.lowered
    obtain rfl := Except.ok.inj hy
    rcases hop with rfl | rfl
    all_goals
      rw [expr] at hx
      obtain ⟨u, b, hu, hb, rfl⟩ := bind_eq_ok hx
      obtain rfl := Except.ok.inj (hpiece.symm.trans hu)
    · exact ⟨.jumpUnless, fun _ _ => rfl, b, hb, by simp⟩
    · exact ⟨.jumpIf, fun _ _ => rfl, b, hb, by simp⟩
  obtain ⟨c, hc, hscope, hcode⟩ := connect_code hb
  obtain ⟨hleft, _⟩ := expr_grown left.assignsOnly_true hwf hpiece
  have hmid := Scope.Since.fresh (A := fun _ => True) hleft.since.wf
  have hgrown := (expr_grown right.assignsOnly_true hmid.wf hc).1
  subst ha
  -- In front stand the left operand, a copy and the jump; behind stands the other copy, into a
  -- register that was issued before the right operand.
  have hparts : piece ++ b.code = (piece ++ [.copy l.register after.registers,
      jump after.registers (n + piece.length + c.code.length + 3)]) ++ c.code ++
        [.copy c.value.register after.registers] := by
    simp [hcode]
  refine h.inner (Task.lower_value hc) hparts (Nat.le_succ_of_le hleft.since.le) ?_ ?_ ?_ ?_
  · intro i hi r hr
    rcases List.mem_append.1 hi with hi | hi
    · exact Nat.lt_succ_of_lt (hleft.dests i hi r hr).1
    · rcases List.mem_cons.1 hi with rfl | hi
      · obtain rfl := Option.some.inj hr
        exact Nat.lt_succ_self _
      · rw [List.mem_singleton.1 hi, hjump] at hr
        cases hr
  · intro i hi r hr
    obtain rfl := List.mem_singleton.1 hi
    obtain rfl := Option.some.inj hr
    exact Or.inl (Nat.lt_succ_self _)
  · rw [hscope]
    exact .refl hgrown.since.wf
  · intro base key heq
    cases heq

/-- An assignment computes what it stores, and then stores it. -/
theorem lower_stored {x : Emit Operand} {target : Expr} {b : Emitted Operand}
    (h : (x >>= fun v => do store target v; pure v) n scope = .ok b) :
    (x >>= fun v => (Task.store target v).lower) n scope = .ok ⟨(), b.code, b.scope⟩ := by
  obtain ⟨u, w, hu, hw, rfl⟩ := bind_eq_ok h
  obtain ⟨s, z, hs, hz, rfl⟩ := bind_eq_ok hw
  obtain rfl := Except.ok.inj hz
  have hall := bind_ok (f := fun v => (Task.store target v).lower) hu hs
  simpa using hall

theorem lower_assign {target value : Expr}
    (h : (Task.value (.binary target .assign value)).lower n scope = .ok a) :
    (expr value >>= fun v => (Task.store target v).lower) n scope = .ok a := by
  obtain ⟨b, y, hb, hy, rfl⟩ := bind_eq_ok h
  obtain rfl := Except.ok.inj hy
  rw [List.append_nil]
  rw [expr] at hb
  split at hb
  · exact lower_stored hb
  · cases hb

theorem lower_update {target value : Expr} {op : Arith}
    (h : (Task.value (.binary target (.update op) value)).lower n scope = .ok a) :
    ((do let x ← expr target; let y ← expr value; arith op x y) >>=
      fun v => (Task.store target v).lower) n scope = .ok a := by
  obtain ⟨b, y, hb, hy, rfl⟩ := bind_eq_ok h
  obtain rfl := Except.ok.inj hy
  rw [List.append_nil]
  rw [expr] at hb
  split at hb
  · refine lower_stored ?_
    rw [bind_assoc]
    simp only [bind_assoc]
    exact hb
  · cases hb

theorem lower_back {base key outer : Expr} {value : Operand}
    (h : (Task.store (.element (.element base key) outer) value).lower n scope = .ok a) :
    ((do let x ← expr (.element base key); let y ← expr outer; put x y value) >>=
      fun c => (Task.store (.element base key) c).lower) n scope = .ok a := by
  rw [Task.lower, store] at h
  rw [bind_assoc]
  simp only [bind_assoc]
  exact h

/-- Every site of a program that lowers. -/
theorem Site.surrounded {all : Emitted Unit} (hall : statements 0 .empty p = .ok all)
    (h : Site p task n scope) : Surrounded all.code all.scope task n scope := by
  induction h with
  | statement hp hbefore =>
    subst hp
    exact surrounded_statement hbefore hall
  | operand hsite hops hpre ih =>
    obtain ⟨a, front, behind, h⟩ := ih
    exact h.operand hsite.wf hops hpre
  | right hsite hop hl ih =>
    obtain ⟨a, front, behind, h⟩ := ih
    exact h.right hsite.wf hop hl
  | @assign target value _ _ _ _ _ hsite hv ih =>
    obtain ⟨a, front, behind, h⟩ := ih
    refine h.last (f := fun v => .store target v) (fun _ _ heq => nomatch heq)
      (lower_assign h.lowered) ?_ hsite.wf hv
    exact grows_mono ((expr_grows value).expr value.assignsOnly_true) fun _ _ _ _ => trivial
  | @update target value op _ _ _ _ _ hsite hv ih =>
    obtain ⟨a, front, behind, h⟩ := ih
    refine h.last (f := fun v => .store target v) (fun _ _ heq => nomatch heq)
      (lower_update h.lowered) ?_ hsite.wf hv
    refine grows_bind
      (grows_mono ((expr_grows target).expr target.assignsOnly_true) fun _ _ _ _ _ => ?_)
    refine grows_bind
      (grows_mono ((expr_grows value).expr value.assignsOnly_true) fun _ _ _ _ _ => ?_)
    exact grows_mono arith_grows fun _ _ _ _ => trivial
  | @back base key outer value _ _ _ _ _ hsite hc ih =>
    obtain ⟨a, front, behind, h⟩ := ih
    refine h.last (f := fun c => .store (.element base key) c) (fun _ _ heq => nomatch heq)
      (lower_back h.lowered) ?_ hsite.wf hc
    refine grows_bind (grows_mono ((expr_grows _).expr (Expr.element base key).assignsOnly_true) ?_)
    intro x mid _ hx _
    refine grows_bind (grows_mono ((expr_grows outer).expr outer.assignsOnly_true) ?_)
    intro y after hs _ _
    exact grows_mono (put_grows (hx.since hs).lt fun _ => Or.inl (hx.unnamed rfl).1)
      fun _ _ _ _ => trivial

end Lowering

end LineScript
