import LineScript.Proofs.Code.Growth

/-!
# Where code is emitted

Lowering an expression is lowering a list of operands, one after the other, and then finishing: that
is what `Lowering.expr_factors` says, with `Expr.operands` and `Lowering.finish` for the two halves.
Proofs about operands are then proofs about lists, and each kind of expression is left with what it
does to the operands.

`Site p task n scope` says that while the program `p` is lowered, the code of `task` is put at index
`n` in `scope`. A task is an expression to compute or a store to make; the same expression can be a
task several times, since a store computes the containers on the way to its target anew. `Site` is
about lowering alone, no run is mentioned; what a run does at a site is the business of later
modules.
-/

set_option autoImplicit false

namespace LineScript

open State Emit

/-! ## Operands first -/

/-- The expressions whose code stands at the beginning of the code of an expression. -/
def Expr.operands : Expr → List Expr
  | .literal _ => []
  | .ident _ => []
  | .group inner => [inner]
  | .array items => items
  | .map entries => entries.flatMap fun p => [p.1, p.2]
  | .element base key => [base, key]
  | .call _ args => args
  | .unary _ operand => [operand]
  | .binary left (.arith _) right => [left, right]
  | .binary left (.relation _) right => [left, right]
  | .binary left .and _ => [left]
  | .binary left .or _ => [left]
  | .binary _ .assign value => [value]
  | .binary target (.update _) value => [target, value]

/-- Induction in which operands come before the expression, and so do both sides of every
operator. -/
@[elab_as_elim]
theorem Expr.inductOperands {P : Expr → Prop} (step : ∀ e : Expr, (∀ x ∈ e.operands, P x) →
    (∀ left op right, e = .binary left op right → P left ∧ P right) → P e) (e : Expr) : P e := by
  induction e using Expr.induct with
  | literal v => exact step _ (by simp [operands]) (by simp)
  | ident name => exact step _ (by simp [operands]) (by simp)
  | element base key ihb ihk => exact step _ (by simp [operands, ihb, ihk]) (by simp)
  | array items ih => exact step (.array items) ih (by simp)
  | map entries ih =>
    refine step _ (fun x hx => ?_) (by simp)
    obtain ⟨q, hq, hx⟩ := List.mem_flatMap.1 hx
    rcases List.mem_cons.1 hx with rfl | hx
    · exact (ih q hq).1
    · exact List.mem_singleton.1 hx ▸ (ih q hq).2
  | call name args ih => exact step (.call name args) ih (by simp)
  | group inner ih => exact step _ (by simp [operands, ih]) (by simp)
  | unary op operand ih => exact step _ (by simp [operands, ih]) (by simp)
  | binary left op right ihl ihr =>
    refine step _ (fun x hx => ?_) fun l o r heq => ?_
    · cases op <;> simp [operands] at hx <;> rcases hx with rfl | rfl <;> assumption
    · cases heq
      exact ⟨ihl, ihr⟩

namespace Lowering

variable {n : Nat} {scope : Scope}

/-- Keys and values that stand one behind the other. -/
def pairUp : List Operand → List (Operand × Operand)
  | key :: value :: rest => (key, value) :: pairUp rest
  | _ => []

theorem mem_pairUp {os : List Operand} {q : Operand × Operand} (h : q ∈ pairUp os) :
    q.1 ∈ os ∧ q.2 ∈ os := by
  induction os using pairUp.induct with
  | case1 key value rest ih =>
    rw [pairUp] at h
    rcases List.mem_cons.1 h with rfl | h
    · exact ⟨List.mem_cons_self, List.mem_cons_of_mem _ List.mem_cons_self⟩
    · obtain ⟨hkey, hvalue⟩ := ih h
      exact ⟨List.mem_cons_of_mem _ (List.mem_cons_of_mem _ hkey),
        List.mem_cons_of_mem _ (List.mem_cons_of_mem _ hvalue)⟩
  | case2 l hl =>
    rw [pairUp] at h
    · cases h
    · exact hl

/-- What an expression does with its operands. -/
def finish : Expr → List Operand → Emit Operand
  | .literal value, _ => into (.load value) (some value.kind)
  | .ident name, _ => do
    let bound ← Emit.find? name
    readName name bound
  | .group _, [inner] => pure inner
  | .array _, items =>
    into (.makeArray (commonKind items) (items.map Operand.register))
      (some (.array (commonKind items)))
  | .map _, operands => do
    let pairs := pairUp operands
    let kind := commonKind (pairs.map Prod.snd)
    let map ← into (.makeMap kind) (some (.map kind))
    putEntries map.register pairs
    pure map
  | .element _ _, [container, key] => get container key
  | .call name _, args =>
    if name = "print" then do
      Emit.instruction (.print (args.map Operand.register))
      let result ← Emit.fresh
      pure ⟨result, none⟩
    else
      match args with
      | [operand] => do
        checkContainer operand
        into (.len operand.register) (some .number)
      | _ => Emit.fail (.unknownFunction name)
  | .unary op _, [operand] => negation op operand
  | .binary _ (.arith op) _, [left, right] => arith op left right
  | .binary _ (.relation op) _, [left, right] =>
    into (.relate op left.register right.register) (some .bool)
  | .binary _ .and right, [left] => connect .jumpUnless left (expr right)
  | .binary _ .or right, [left] => connect .jumpIf left (expr right)
  | .binary target .assign _, [value] => do
    store target value
    pure value
  | .binary target (.update op) _, [current, operand] => do
    let value ← arith op current operand
    store target value
    pure value
  | _, _ => Emit.fail .invalidTarget

/-! ## Lists of operands -/

theorem exprs_cons {e : Expr} {rest : List Expr} {a : Emitted Operand} {b : Emitted (List Operand)}
    (ha : expr e n scope = .ok a) (hb : exprs rest (n + a.code.length) a.scope = .ok b) :
    exprs (e :: rest) n scope = .ok ⟨a.value :: b.value, a.code ++ b.code, b.scope⟩ := by
  rw [exprs]
  have htail := bind_ok (f := fun os => (pure (a.value :: os) : Emit (List Operand))) hb rfl
  have hall :=
    bind_ok (f := fun o => exprs rest >>= fun os => (pure (o :: os) : Emit (List Operand))) ha htail
  simpa using hall

theorem exprs_one {e : Expr} {a : Emitted Operand} (ha : expr e n scope = .ok a) :
    exprs [e] n scope = .ok ⟨[a.value], a.code, a.scope⟩ := by
  simpa using exprs_cons ha (b := ⟨[], [], a.scope⟩) rfl

theorem exprs_two {e f : Expr} {a b : Emitted Operand} (ha : expr e n scope = .ok a)
    (hb : expr f (n + a.code.length) a.scope = .ok b) :
    exprs [e, f] n scope = .ok ⟨[a.value, b.value], a.code ++ b.code, b.scope⟩ :=
  exprs_cons ha (exprs_one hb)

/-- A list of operands up to one of them, and from there on. -/
theorem exprs_append {es fs : List Expr} {a : Emitted (List Operand)}
    (h : exprs (es ++ fs) n scope = .ok a) :
    ∃ b c, exprs es n scope = .ok b ∧ exprs fs (n + b.code.length) b.scope = .ok c ∧
      a = ⟨b.value ++ c.value, b.code ++ c.code, c.scope⟩ := by
  induction es generalizing n scope a with
  | nil => exact ⟨⟨[], [], scope⟩, a, rfl, h, rfl⟩
  | cons e es ih =>
    rw [List.cons_append, exprs] at h
    obtain ⟨x, y, hx, hy, rfl⟩ := bind_eq_ok h
    obtain ⟨z, w, hz, hw, rfl⟩ := bind_eq_ok hy
    obtain rfl := Except.ok.inj hw
    obtain ⟨b, c, hb, hc, rfl⟩ := ih hz
    refine ⟨_, c, exprs_cons hx hb, ?_, ?_⟩
    · rwa [List.length_append, ← Nat.add_assoc]
    · simp

theorem exprs_yields_one {e : Expr} {o : Operand} {stop : Nat} {after : Scope}
    (h : (expr e).Yields n scope o stop after) : (exprs [e]).Yields n scope [o] stop after := by
  obtain ⟨piece, hpiece, hstop⟩ := h
  exact ⟨piece, exprs_one hpiece, hstop⟩

/-- One expression has one operand. -/
theorem exists_of_exprs_one {e : Expr} {os : List Operand} {stop : Nat} {after : Scope}
    (h : (exprs [e]).Yields n scope os stop after) :
    ∃ o, os = [o] ∧ (expr e).Yields n scope o stop after := by
  obtain ⟨piece, hpiece, rfl⟩ := h
  rw [exprs] at hpiece
  obtain ⟨x, y, hx, hy, heq⟩ := bind_eq_ok hpiece
  obtain rfl := Except.ok.inj hy
  obtain ⟨rfl, rfl, rfl⟩ := Emitted.mk.inj heq
  exact ⟨x.value, rfl, x.code, hx, by simp⟩

theorem exprs_two_eq_ok {e f : Expr} {a : Emitted (List Operand)}
    (h : exprs [e, f] n scope = .ok a) :
    ∃ x y, expr e n scope = .ok x ∧ expr f (n + x.code.length) x.scope = .ok y ∧
      a = ⟨[x.value, y.value], x.code ++ y.code, y.scope⟩ := by
  rw [exprs] at h
  obtain ⟨x, b, hx, hb, rfl⟩ := bind_eq_ok h
  obtain ⟨z, w, hz, hw, rfl⟩ := bind_eq_ok hb
  obtain rfl := Except.ok.inj hw
  rw [exprs] at hz
  obtain ⟨y, v, hy, hv, rfl⟩ := bind_eq_ok hz
  obtain rfl := Except.ok.inj hv
  exact ⟨x, y, hx, hy, by simp⟩

theorem yields_of_exprs_two {e f : Expr} {os : List Operand} {stop : Nat} {after : Scope}
    (h : (exprs [e, f]).Yields n scope os stop after) :
    ∃ x y m mid, os = [x, y] ∧ (expr e).Yields n scope x m mid ∧
      (expr f).Yields m mid y stop after := by
  obtain ⟨piece, hpiece, rfl⟩ := h
  obtain ⟨x, y, hx, hy, heq⟩ := exprs_two_eq_ok hpiece
  obtain ⟨rfl, rfl, rfl⟩ := Emitted.mk.inj heq
  exact ⟨x.value, y.value, _, x.scope, rfl, ⟨x.code, hx, rfl⟩, y.code, hy, by
    rw [List.length_append, Nat.add_assoc]⟩

theorem exprs_snoc {es : List Expr} {e : Expr} {os : List Operand} {o : Operand}
    {m stop : Nat} {mid after : Scope} (hes : (exprs es).Yields n scope os m mid)
    (he : (expr e).Yields m mid o stop after) :
    (exprs (es ++ [e])).Yields n scope (os ++ [o]) stop after := by
  obtain ⟨piece, hpiece, rfl⟩ := hes
  obtain ⟨last, hlast, rfl⟩ := he
  refine ⟨piece ++ last, ?_, by rw [List.length_append, Nat.add_assoc]⟩
  -- On the list that comes first.
  induction es generalizing n scope os piece with
  | nil =>
    obtain ⟨rfl, rfl, rfl⟩ : os = [] ∧ piece = [] ∧ mid = scope := by
      simpa [exprs, pure] using Except.ok.inj hpiece.symm
    exact exprs_one hlast
  | cons f es ih =>
    rw [exprs] at hpiece
    obtain ⟨x, y, hx, hy, heq⟩ := bind_eq_ok hpiece
    obtain ⟨z, w, hz, hw, rfl⟩ := bind_eq_ok hy
    obtain rfl := Except.ok.inj hw
    simp only [Emitted.mk.injEq, List.append_nil] at heq
    obtain ⟨rfl, rfl, rfl⟩ := heq
    have hrest := ih z.code hz (by rwa [List.length_append, ← Nat.add_assoc] at hlast)
    simpa using exprs_cons hx hrest

/-- Keys and values are a list of operands too. -/
theorem exprs_of_entries {ps : List (Expr × Expr)} {a : Emitted (List (Operand × Operand))}
    (h : entries ps n scope = .ok a) :
    ∃ os, exprs (ps.flatMap fun p => [p.1, p.2]) n scope = .ok ⟨os, a.code, a.scope⟩ ∧
      pairUp os = a.value := by
  induction ps generalizing n scope a with
  | nil =>
    obtain rfl := Except.ok.inj h
    exact ⟨[], rfl, rfl⟩
  | cons p rest ih =>
    obtain ⟨key, value⟩ := p
    rw [entries] at h
    obtain ⟨x, y, hx, hy, rfl⟩ := bind_eq_ok h
    obtain ⟨u, v, hu, hv, rfl⟩ := bind_eq_ok hy
    obtain ⟨z, w, hz, hw, rfl⟩ := bind_eq_ok hv
    obtain rfl := Except.ok.inj hw
    obtain ⟨os, hos, hpairs⟩ := ih hz
    refine ⟨x.value :: u.value :: os, ?_, ?_⟩
    · simpa using exprs_cons hx (exprs_cons hu hos)
    · rw [pairUp, hpairs]

/-- Code with the operands in front is the code that follows them, behind theirs. -/
theorem bind_exprs_two {α : Type} {e f : Expr} {k : Operand → Operand → Emit α}
    {g : List Operand → Emit α} (hg : ∀ x y, g [x, y] = k x y) {a : Emitted α}
    (h : (do let x ← expr e; let y ← expr f; k x y) n scope = .ok a) :
    (exprs [e, f] >>= g) n scope = .ok a := by
  obtain ⟨x, y, hx, hy, rfl⟩ := bind_eq_ok h
  obtain ⟨u, v, hu, hv, rfl⟩ := bind_eq_ok hy
  have hall := bind_ok (f := g) (exprs_two hx hu) (b := v) (by
    simp only [hg, List.length_append, ← Nat.add_assoc]
    exact hv)
  simpa using hall

theorem bind_exprs_one {e : Expr} {k : Operand → Emit Operand} {g : List Operand → Emit Operand}
    (hg : ∀ x, g [x] = k x) {a : Emitted Operand} (h : (do let x ← expr e; k x) n scope = .ok a) :
    (exprs [e] >>= g) n scope = .ok a := by
  obtain ⟨x, y, hx, hy, rfl⟩ := bind_eq_ok h
  exact bind_ok (exprs_one hx) (by rw [hg]; exact hy)

/-- Lowering an expression is lowering its operands and finishing. -/
theorem expr_factors {e : Expr} {a : Emitted Operand} (h : expr e n scope = .ok a) :
    (exprs e.operands >>= finish e) n scope = .ok a := by
  cases e with
  | literal v => exact bind_ok (a := ⟨[], [], scope⟩) rfl h
  | ident name =>
    rw [expr] at h
    exact bind_ok (a := ⟨[], [], scope⟩) rfl h
  | group inner =>
    rw [expr] at h
    have hall :=
      bind_ok (f := finish (.group inner)) (exprs_one h) (b := ⟨a.value, [], a.scope⟩) rfl
    rw [List.append_nil] at hall
    exact hall
  | array items =>
    rw [expr] at h
    exact h
  | map entries =>
    rw [expr] at h
    obtain ⟨x, y, hx, hy, rfl⟩ := bind_eq_ok h
    obtain ⟨os, hos, hpairs⟩ := exprs_of_entries hx
    refine bind_ok hos ?_
    simp only [finish, hpairs]
    exact hy
  | element base key =>
    rw [expr] at h
    exact bind_exprs_two (fun _ _ => rfl) h
  | call name args =>
    rcases call_cases name args with ⟨rfl, heq⟩ | ⟨arg, rfl, rfl, heq⟩ | ⟨e, heq⟩
    · rw [heq] at h
      exact h
    · rw [heq] at h
      exact bind_exprs_one (fun _ => rfl) h
    · rw [heq] at h
      cases h
  | unary op operand =>
    rw [expr] at h
    exact bind_exprs_one (fun _ => rfl) h
  | binary left op right =>
    cases op with
    | arith op =>
      rw [expr] at h
      exact bind_exprs_two (fun _ _ => rfl) h
    | relation op =>
      rw [expr] at h
      exact bind_exprs_two (fun _ _ => rfl) h
    | and =>
      rw [expr] at h
      exact bind_exprs_one (fun _ => rfl) h
    | or =>
      rw [expr] at h
      exact bind_exprs_one (fun _ => rfl) h
    | assign =>
      rw [expr] at h
      split at h
      · exact bind_exprs_one (fun _ => rfl) h
      · cases h
    | update op =>
      rw [expr] at h
      split at h
      · exact bind_exprs_two (fun _ _ => rfl) h
      · cases h

/-- The code of `and` and `or` behind the left operand. -/
theorem connect_code {jump : Register → Nat → Instruction} {l : Operand} {right : Expr}
    {b : Emitted Operand} (h : connect jump l (expr right) n scope = .ok b) :
    ∃ c, expr right (n + 2) { scope with registers := scope.registers + 1 } = .ok c ∧
      b.scope = c.scope ∧
      b.code = .copy l.register scope.registers :: jump scope.registers (n + c.code.length + 3) ::
        (c.code ++ [.copy c.value.register scope.registers]) := by
  obtain ⟨x, y, hx, hy, rfl⟩ := bind_eq_ok h
  obtain rfl := Except.ok.inj hx
  obtain ⟨z, w, hz, hw, rfl⟩ := bind_eq_ok hy
  obtain rfl := Except.ok.inj hw
  unfold skippedBy at hz
  split at hz
  · cases hz
  · rename_i body hbody
    obtain rfl := Except.ok.inj hz
    obtain ⟨c, d, hc, hd, rfl⟩ := bind_eq_ok hbody
    obtain ⟨_, _, hcopy, hpure, rfl⟩ := bind_eq_ok hd
    obtain rfl := Except.ok.inj hcopy
    obtain rfl := Except.ok.inj hpure
    refine ⟨c, hc, rfl, ?_⟩
    -- The jump stands one behind the copy, and one copy stands behind the operand.
    have htarget : n + 1 + 1 + (c.code.length + 1) = n + c.code.length + 3 := by omega
    simp [htarget]

/-! ## Sites -/

/-- What is to be lowered: an expression, or a store of a value into a target. -/
inductive Task where
  | value (e : Expr)
  | store (target : Expr) (value : Operand)

namespace Task

/-- The expressions whose code stands first. -/
def operands : Task → List Expr
  | .value e => e.operands
  | .store (.element base key) _ => [base, key]
  | .store _ _ => []

/-- The code of the task. -/
def lower : Task → Emit Unit
  | .value e => do
    let _ ← expr e
    pure ()
  | .store target v => Lowering.store target v

/-- The expression that is computed or stored into. -/
def subject : Task → Expr
  | .value e => e
  | .store target _ => target

end Task

/-- What a task does with its operands. -/
def Task.rest : Task → List Operand → Emit Unit
  | .value e, os => do
    let _ ← finish e os
    pure ()
  | .store (.element base _) v, [c, k] => do
    let container ← put c k v
    match base with
    | .ident name => Emit.bindName name container
    | _ => Lowering.store base container
  | .store (.element _ _) _, _ => Emit.fail .invalidTarget
  | .store target v, _ => Lowering.store target v

/-- The code of a task begins with that of its operands. -/
theorem Task.factors {task : Task} {a : Emitted Unit} (h : task.lower n scope = .ok a) :
    (exprs task.operands >>= task.rest) n scope = .ok a := by
  cases task with
  | value e =>
    obtain ⟨x, y, hx, hy, rfl⟩ := bind_eq_ok h
    obtain ⟨os, b, hos, hb, rfl⟩ := bind_eq_ok (expr_factors hx)
    have hrest := bind_ok (f := fun _ => (pure () : Emit Unit)) hb (b := ⟨(), [], b.scope⟩) rfl
    have hall := bind_ok (f := (Task.value e).rest) hos hrest
    obtain rfl := Except.ok.inj hy
    rw [List.append_nil] at hall ⊢
    exact hall
  | store target v =>
    cases target with
    | element base key =>
      rw [Task.lower, Lowering.store] at h
      exact bind_exprs_two (fun _ _ => rfl) h
    | _ => exact bind_ok (a := ⟨[], [], scope⟩) rfl h

theorem Task.lower_value {e : Expr} {a : Emitted Operand} (h : expr e n scope = .ok a) :
    (Task.value e).lower n scope = .ok ⟨(), a.code, a.scope⟩ := by
  have hall := bind_ok (f := fun _ => (pure () : Emit Unit)) h (b := ⟨(), [], a.scope⟩) rfl
  rw [List.append_nil] at hall
  exact hall

/-- While the program is lowered, the code of the task is put at an index in a scope. -/
inductive Site (p : Program) : Task → Nat → Scope → Prop
  /-- A statement stands behind the statements before it. -/
  | statement {earlier later : Program} {st : Statement} {all : Emitted Unit}
      (hp : p = earlier ++ st :: later) (hall : statements 0 .empty earlier = .ok all) :
      Site p (.value st.expr) all.code.length all.scope
  /-- An operand stands behind the operands before it. -/
  | operand {task : Task} {n stop : Nat} {scope after : Scope} {earlier later : List Expr}
      {e : Expr} {os : List Operand} (h : Site p task n scope)
      (hops : task.operands = earlier ++ e :: later)
      (hpre : (exprs earlier).Yields n scope os stop after) : Site p (.value e) stop after
  /-- The right operand of `and` and `or` stands behind the left one, a copy and a jump. -/
  | right {left right : Expr} {op : BinaryOp} {n stop : Nat} {scope after : Scope} {l : Operand}
      (h : Site p (.value (.binary left op right)) n scope) (hop : op = .and ∨ op = .or)
      (hl : (expr left).Yields n scope l stop after) :
      Site p (.value right) (stop + 2) { after with registers := after.registers + 1 }
  /-- An assignment stores its right side. -/
  | assign {target value : Expr} {n stop : Nat} {scope after : Scope} {v : Operand}
      (h : Site p (.value (.binary target .assign value)) n scope)
      (hv : (expr value).Yields n scope v stop after) : Site p (.store target v) stop after
  /-- A compound assignment stores the result of the operation. -/
  | update {target value : Expr} {op : Arith} {n stop : Nat} {scope after : Scope}
      {v : Operand} (h : Site p (.value (.binary target (.update op) value)) n scope)
      (hv : (do let x ← expr target; let y ← expr value; arith op x y).Yields n scope v stop
        after) : Site p (.store target v) stop after
  /-- A container that is an element itself is a copy, and is stored back. -/
  | back {base key outer : Expr} {value : Operand} {n stop : Nat} {scope after : Scope}
      {c : Operand} (h : Site p (.store (.element (.element base key) outer) value) n scope)
      (hc : (do let x ← expr (.element base key); let y ← expr outer; put x y value).Yields n scope
        c stop after) : Site p (.store (.element base key) c) stop after

/-- The first operand stands where the task does. -/
theorem Site.first {p : Program} {task : Task} {e : Expr} {later : List Expr}
    (h : Site p task n scope) (hops : task.operands = e :: later) : Site p (.value e) n scope := by
  have hnone : (exprs []).Yields n scope [] n scope := ⟨[], rfl, rfl⟩
  exact .operand h hops hnone

/-- The second operand stands behind the first. -/
theorem Site.second {p : Program} {task : Task} {e f : Expr} {later : List Expr} {o : Operand}
    {stop : Nat} {after : Scope} (h : Site p task n scope) (hops : task.operands = e :: f :: later)
    (ho : (expr e).Yields n scope o stop after) : Site p (.value f) stop after :=
  .operand h hops (exprs_yields_one ho)

/-! ## What stands at a site -/

theorem nodes_of_mem_operands {e x : Expr} (h : x ∈ e.operands) : ∀ m ∈ x.nodes, m ∈ e.parts := by
  intro m hm
  cases e with
  | literal v => cases h
  | ident name => cases h
  | array items => exact Expr.mem_nodesOf.2 ⟨x, h, hm⟩
  | call name args => exact Expr.mem_nodesOf.2 ⟨x, h, hm⟩
  | map entries =>
    obtain ⟨q, hq, hx⟩ := List.mem_flatMap.1 h
    refine Expr.mem_nodesOfPairs.2 ⟨q, hq, ?_⟩
    rcases List.mem_cons.1 hx with rfl | hx
    · exact Or.inl hm
    · obtain rfl := List.mem_singleton.1 hx
      exact Or.inr hm
  | element base key =>
    have hx : x = base ∨ x = key := by simpa [Expr.operands] using h
    rcases hx with rfl | rfl
    · exact List.mem_append_left _ hm
    · exact List.mem_append_right _ hm
  | group inner =>
    obtain rfl := List.mem_singleton.1 h
    exact hm
  | unary op operand =>
    obtain rfl := List.mem_singleton.1 h
    exact hm
  | binary left op right =>
    have hx : x = left ∨ x = right := by cases op <;> simp [Expr.operands] at h <;> simp [h]
    rcases hx with rfl | rfl
    · exact List.mem_append_left _ hm
    · exact List.mem_append_right _ hm

theorem nodes_of_mem_taskOperands {task : Task} {x : Expr} (h : x ∈ task.operands) :
    ∀ m ∈ x.nodes, m ∈ task.subject.parts := by
  cases task with
  | value e => exact nodes_of_mem_operands h
  | store target v =>
    cases target with
    | element base key => exact nodes_of_mem_operands (e := .element base key) h
    | _ => cases h

theorem all_of_mem_operands {e x : Expr} {q : Expr → Prop} (he : e.All q)
    (h : x ∈ e.operands) : x.All q :=
  fun m hm => he m (List.mem_cons_of_mem _ (nodes_of_mem_operands h m hm))

/-- At a site stands a statement, or something from inside a statement. -/
theorem Site.within {p : Program} {task : Task} (h : Site p task n scope) :
    ∃ st ∈ p, task = .value st.expr ∨ ∀ m ∈ task.subject.nodes, m ∈ st.expr.parts := by
  -- What stands inside something from a statement stands inside the statement.
  have hbelow : ∀ {task : Task} {x : Expr},
      (∃ st ∈ p, task = .value st.expr ∨ ∀ m ∈ task.subject.nodes, m ∈ st.expr.parts) →
      (∀ m ∈ x.nodes, m ∈ task.subject.parts) → ∃ st ∈ p, ∀ m ∈ x.nodes, m ∈ st.expr.parts := by
    rintro task x ⟨st, hst, rfl | hin⟩ hx
    · exact ⟨st, hst, hx⟩
    · exact ⟨st, hst, fun m hm => hin m (List.mem_cons_of_mem _ (hx m hm))⟩
  induction h with
  | @statement earlier later st all hp hall =>
    exact ⟨st, hp ▸ List.mem_append_right _ List.mem_cons_self, Or.inl rfl⟩
  | @operand task n stop scope after earlier later e os _ hops _ ih =>
    have hmem : e ∈ task.operands := hops ▸ List.mem_append_right _ List.mem_cons_self
    obtain ⟨st, hst, hin⟩ := hbelow ih (nodes_of_mem_taskOperands hmem)
    exact ⟨st, hst, Or.inr hin⟩
  | right _ _ _ ih =>
    obtain ⟨st, hst, hin⟩ := hbelow ih fun m hm => List.mem_append_right _ hm
    exact ⟨st, hst, Or.inr hin⟩
  | assign _ _ ih =>
    obtain ⟨st, hst, hin⟩ := hbelow ih fun m hm => List.mem_append_left _ hm
    exact ⟨st, hst, Or.inr hin⟩
  | update _ _ ih =>
    obtain ⟨st, hst, hin⟩ := hbelow ih fun m hm => List.mem_append_left _ hm
    exact ⟨st, hst, Or.inr hin⟩
  | back _ _ ih =>
    obtain ⟨st, hst, hin⟩ := hbelow ih fun m hm => List.mem_append_left _ hm
    exact ⟨st, hst, Or.inr hin⟩

/-- What holds of every node of a program holds of every node of what stands at a site. -/
theorem Site.all {p : Program} {task : Task} {q : Expr → Prop} (hp : ∀ st ∈ p, st.expr.All q)
    (h : Site p task n scope) : task.subject.All q := by
  obtain ⟨st, hst, rfl | hin⟩ := h.within
  · exact hp st hst
  · exact fun m hm => hp st hst m (List.mem_cons_of_mem _ (hin m hm))

/-- What holds below the roots of statements holds below the root of what stands at a site. -/
theorem Site.parts {p : Program} {task : Task} {q : Expr → Prop}
    (hp : ∀ st ∈ p, ∀ m ∈ st.expr.parts, q m) (h : Site p task n scope) :
    ∀ m ∈ task.subject.parts, q m := by
  obtain ⟨st, hst, rfl | hin⟩ := h.within
  · exact hp st hst
  · exact fun m hm => hp st hst m (hin m (List.mem_cons_of_mem _ hm))

/-- Below the root of a statement that assigns at its root only, nothing is assigned. -/
theorem Site.assignsAtRoot {p : Program} {task : Task} (hp : ∀ st ∈ p, st.expr.AssignsAtRoot)
    (h : Site p task n scope) : task.subject.AssignsAtRoot :=
  h.parts hp

theorem assignmentFree_of_mem_operands {e x : Expr} (he : e.AssignsAtRoot) (h : x ∈ e.operands) :
    x.AssignmentFree :=
  fun m hm => he m (nodes_of_mem_operands h m hm)

/-! ## Scopes at sites -/

theorem yields_bind {α β : Type} {x : Emit α} {f : α → Emit β} {b : β} {stop : Nat} {after : Scope}
    (h : (x >>= f).Yields n scope b stop after) :
    ∃ a m mid, x.Yields n scope a m mid ∧ (f a).Yields m mid b stop after := by
  obtain ⟨piece, hpiece, rfl⟩ := h
  obtain ⟨x', y, hx, hy, heq⟩ := bind_eq_ok hpiece
  cases heq
  refine ⟨x'.value, _, x'.scope, ⟨x'.code, hx, rfl⟩, y.code, hy, ?_⟩
  rw [List.length_append, Nat.add_assoc]

/-- Code behind two operands. -/
theorem yields_of_pair {α : Type} {e f : Expr} {g : Operand → Operand → Emit α}
    {c k : Operand} {a : α} {m stop : Nat} {mid after : Scope}
    (h : (do let x ← expr e; let y ← expr f; pure (x, y)).Yields n scope (c, k) m mid)
    (hg : (g c k).Yields m mid a stop after) :
    (do let x ← expr e; let y ← expr f; g x y).Yields n scope a stop after := by
  obtain ⟨x, m₁, mid₁, hx, h⟩ := yields_bind h
  obtain ⟨y, m₂, mid₂, hy, h⟩ := yields_bind h
  obtain ⟨_, hpure, rfl⟩ := h
  cases hpure
  exact hx.bind (hy.bind hg)

/-- A check emits nothing. -/
theorem checkIndex_code {k : Operand} {a : Emitted Unit} (h : checkIndex k n scope = .ok a) :
    a = ⟨(), [], scope⟩ := by
  rw [checkIndex.eq_def] at h
  rcases hkind : k.kind with _ | kind
  · simp only [hkind] at h
    exact (Except.ok.inj h).symm
  · cases kind with
    | number =>
      simp only [hkind] at h
      exact (Except.ok.inj h).symm
    | _ =>
      simp only [hkind] at h
      cases h

/-- One instruction puts a value into a container, and nothing else changes. -/
theorem put_code {c k v : Operand} {a : Emitted Operand} (h : put c k v n scope = .ok a) :
    a.scope = scope ∧ a.value.register = c.register ∧
      ∃ i, a.code = [i] ∧ i.dest? = some c.register := by
  -- Arrays and maps differ in the instruction only.
  have hset : ∀ {i : Instruction} {kind : Option Kind} {m : Nat} {b : Emitted Operand},
      i.dest? = some c.register →
      (do Emit.instruction i; pure (⟨c.register, kind⟩ : Operand)) m scope = .ok b →
      b.scope = scope ∧ b.value.register = c.register ∧
      ∃ i, b.code = [i] ∧ i.dest? = some c.register := by
    intro i kind m b hdest hb
    obtain rfl := Except.ok.inj hb
    exact ⟨rfl, rfl, i, rfl, hdest⟩
  rw [put.eq_def] at h
  rcases hkind : c.kind with _ | kind
  · simp only [hkind] at h
    exact hset (by rfl) h
  · cases kind with
    | array element =>
      simp only [hkind] at h
      obtain ⟨x, y, hx, hy, rfl⟩ := bind_eq_ok h
      obtain rfl := checkIndex_code hx
      exact hset (by rfl) hy
    | _ =>
      simp only [hkind] at h
      exact hset (by rfl) h

theorem scope_of_put {c k v o : Operand} {stop : Nat} {after : Scope}
    (h : (put c k v).Yields n scope o stop after) : after = scope ∧ o.register = c.register := by
  obtain ⟨piece, hpiece, _⟩ := h
  obtain ⟨hscope, hregister, _⟩ := put_code hpiece
  exact ⟨hscope, hregister⟩

/-- What an expression leaves behind. -/
theorem expr_since {e : Expr} {o : Operand} {stop : Nat} {after : Scope} {A : String → Prop}
    (hA : e.AssignsOnly A) (hwf : scope.WF) (h : (expr e).Yields n scope o stop after) :
    Scope.Since A scope after ∧ Resides scope e.alias? o after := by
  obtain ⟨piece, hpiece, _⟩ := h
  obtain ⟨hgrown, hres⟩ := expr_grown hA hwf hpiece
  exact ⟨hgrown.since, hres⟩

theorem exprs_since {es : List Expr} {os : List Operand} {stop : Nat} {after : Scope}
    {A : String → Prop} (hA : ∀ e ∈ es, e.AssignsOnly A) (hwf : scope.WF)
    (h : (exprs es).Yields n scope os stop after) : Scope.Since A scope after := by
  obtain ⟨piece, hpiece, _⟩ := h
  exact (exprs_grown hA hwf hpiece).1.since

theorem arith_since {op : Arith} {l r o : Operand} {stop : Nat} {after : Scope} {A : String → Prop}
    (hwf : scope.WF) (h : (arith op l r).Yields n scope o stop after) :
    Scope.Since A scope after ∧ Resides scope none o after := by
  obtain ⟨piece, hpiece, _⟩ := h
  obtain ⟨hgrown, hres⟩ := arith_grows (.refl hwf) _ hpiece
  exact ⟨hgrown.since, hres⟩

theorem Site.wf {p : Program} {task : Task} (h : Site p task n scope) : scope.WF := by
  induction h with
  | statement hp hall => exact (statements_grown (.refl Scope.empty_wf) hall).since.wf
  | operand _ _ hpre ih => exact (exprs_since (fun e _ => e.assignsOnly_true) ih hpre).wf
  | @right left _ _ _ _ _ _ _ _ _ hl ih =>
    exact (Scope.Since.fresh (A := fun _ => True) (expr_since left.assignsOnly_true ih hl).1.wf).wf
  | @assign _ value _ _ _ _ _ _ hv ih => exact (expr_since value.assignsOnly_true ih hv).1.wf
  | @update target value _ _ _ _ _ _ _ hv ih =>
    obtain ⟨x, m, mid, hx, hv⟩ := yields_bind hv
    obtain ⟨y, m', mid', hy, hv⟩ := yields_bind hv
    have hmid := (expr_since target.assignsOnly_true ih hx).1.wf
    have hmid' := (expr_since value.assignsOnly_true hmid hy).1.wf
    exact (arith_since (A := fun _ => True) hmid' hv).1.wf
  | @back base key outer _ _ _ _ _ _ _ hc ih =>
    obtain ⟨x, m, mid, hx, hc⟩ := yields_bind hc
    obtain ⟨y, m', mid', hy, hc⟩ := yields_bind hc
    have hmid := (expr_since (Expr.element base key).assignsOnly_true ih hx).1.wf
    have hmid' := (expr_since outer.assignsOnly_true hmid hy).1.wf
    exact (scope_of_put hc).1 ▸ hmid'

/-! ## Statement by statement -/

/-- Statements one after the other, each at its site. `K` speaks about the statements that are still
to come. -/
theorem statements_sites {code : List Instruction} {I : State → Prop}
    {E : Instruction → Fault → Prop} {K : Program → Scope → State → Prop}
    {p earlier later : Program} {all : Emitted Unit} {s : State}
    (hK : ∀ st rest scope s, Site p (.value st.expr) s.next scope → K (st :: rest) scope s →
      wp code I E (expr st.expr) (fun _ => K rest) scope s) (hsplit : p = earlier ++ later)
    (hall : statements 0 .empty earlier = .ok all) (hplaced : Placed code 0 all.code)
    (hs : s.next = 0) (hstart : K earlier .empty s) :
    Leads code (fun u => u.next < all.code.length ∧ I u) E
      (fun t => t.next = all.code.length ∧ K [] all.scope t) s := by
  rw [← hs] at hplaced hall
  have hleads :=
    statements_leads (p := earlier) (s := s) (I := I) (E := E) (J := fun rest scope s =>
      ∃ done before, earlier = done ++ rest ∧ statements 0 .empty done = .ok before ∧
        s.next = before.code.length ∧ scope = before.scope ∧ K rest scope s) ?_ hall hplaced ?_
  · refine hleads.mono ?_ (fun _ _ hf => hf) ?_
    · rintro u ⟨hlt, hI⟩
      exact ⟨by omega, hI⟩
    · rintro t ⟨hn, _, _, _, _, _, _, ht⟩
      exact ⟨by omega, ht⟩
  · rintro st rest scope s ⟨done, before, rfl, hdone, hn, rfl, hK'⟩
    have hsite : Site p (.value st.expr) s.next before.scope := by
      rw [hn]
      exact .statement (by rw [hsplit, List.append_assoc, List.cons_append]) hdone
    refine wp_mono (hK st rest before.scope s hsite hK') ?_
    rintro o after t ⟨piece, hpiece, hstop⟩ hQ
    -- The statement joins those that are done.
    have hsnoc := statements_snoc hdone (by rw [Nat.zero_add, ← hn]; exact hpiece)
    refine ⟨done ++ [st], _, by simp, hsnoc, ?_, rfl, hQ⟩
    rw [hstop, hn, List.length_append]
  · exact ⟨[], ⟨(), [], .empty⟩, rfl, rfl, hs, rfl, hstart⟩

end Lowering

end LineScript
