import LineScript.Proofs.Code.Surroundings

/-!
# Register discipline

How the instructions of a program use registers, read off the code and not off its runs. Every
register that is read was written by an instruction with a smaller index; only the result of a call
of `print` is written by none. No two variables share a register, and the result of an expression
lies in the register of a variable only if the expression is that variable.

The order of writes and reads goes through the code from the front. `ordered` carries the
instructions emitted so far, and `Bound` says that they include one for each variable in scope.
Jumps are of no concern: an instruction that is jumped over counts as well. That is why a register
may be empty when it is read all the same.
-/

set_option autoImplicit false

namespace LineScript

open State Emit

namespace Lowering

variable {α β : Type} {p : Program} {scope after : Scope} {done more : List Instruction}
    {r : Register}

/-! ## Registers of a program -/

/-- Somewhere in the program the expression is computed, and its value is expected in the
register. -/
def ResultOf (p : Program) (e : Expr) (r : Register) : Prop :=
  ∃ n scope o stop after, Site p (.value e) n scope ∧ (expr e).Yields n scope o stop after ∧
    o.register = r

/-- The register stands for what a call of `print` yields. -/
def PrintResult (p : Program) (r : Register) : Prop := ∃ args, ResultOf p (.call "print" args) r

/-- The register belongs to the variable. -/
def VariableRegister (p : Program) (x : String) (r : Register) : Prop :=
  ∃ all b, statements 0 .empty p = .ok all ∧ all.scope.find? x = some b ∧ b.register = r

/-- The register is written by one of the instructions, or stands for what a call of `print`
yields. -/
def Supplied (p : Program) (done : List Instruction) (r : Register) : Prop :=
  (∃ i ∈ done, i.dest? = some r) ∨ PrintResult p r

/-- The variables in scope have been written. -/
def Bound (p : Program) (scope : Scope) (done : List Instruction) : Prop :=
  ∀ x b, scope.find? x = some b → Supplied p done b.register

/-- Behind `done`, the instructions read nothing but what is supplied by then. -/
def Orderly (p : Program) (done code : List Instruction) : Prop :=
  ∀ k i, code[k]? = some i → ∀ q ∈ i.reads, Supplied p (done ++ code.take k) q

theorem Supplied.append (h : Supplied p done r) : Supplied p (done ++ more) r := by
  rcases h with ⟨i, hi, hr⟩ | hprint
  · exact Or.inl ⟨i, List.mem_append_left _ hi, hr⟩
  · exact Or.inr hprint

theorem supplied_of_dest {i : Instruction} (h : i.dest? = some r) : Supplied p (done ++ [i]) r :=
  Or.inl ⟨i, List.mem_append_right _ List.mem_cons_self, h⟩

theorem Bound.append (h : Bound p scope done) : Bound p scope (done ++ more) :=
  fun x b hb => (h x b hb).append

theorem Bound.bind {name : String} {o : Operand} (h : Bound p scope done)
    (ho : Supplied p done o.register) : Bound p (scope.bind name o) done := by
  intro x b hb
  rw [Scope.find?_bind] at hb
  split at hb
  · exact Option.some.inj hb ▸ ho
  · exact h x b hb

theorem Orderly.append {code rest : List Instruction} (h : Orderly p done code)
    (hrest : Orderly p (done ++ code) rest) : Orderly p done (code ++ rest) := by
  intro k i hi q hq
  by_cases hlt : k < code.length
  · rw [List.getElem?_append_left hlt] at hi
    rw [List.take_append_of_le_length (Nat.le_of_lt hlt)]
    exact h k i hi q hq
  · have hle : code.length ≤ k := Nat.le_of_not_lt hlt
    rw [List.getElem?_append_right hle] at hi
    rw [List.take_append, List.take_of_length_le hle, ← List.append_assoc]
    exact hrest _ i hi q hq

/-! ## Rules -/

/-- Behind the instructions `done`, the piece reads nothing but what is supplied, and `Q` holds of
its value, of the scope it leaves and of all instructions that are there then. -/
def ordered (p : Program) (x : Emit α) (Q : α → Scope → List Instruction → Prop) (scope : Scope)
    (done : List Instruction) : Prop :=
  ∀ a, x done.length scope = .ok a → Orderly p done a.code ∧ Q a.value a.scope (done ++ a.code)

theorem ordered_mono {x : Emit α} {Q R : α → Scope → List Instruction → Prop}
    (h : ordered p x Q scope done)
    (hQ : ∀ v after code, x.Yields done.length scope v (done ++ code).length after →
      Q v after (done ++ code) → R v after (done ++ code)) : ordered p x R scope done := by
  intro a ha
  obtain ⟨hcode, hQa⟩ := h a ha
  exact ⟨hcode, hQ _ _ _ ⟨a.code, ha, List.length_append⟩ hQa⟩

theorem ordered_congr {x y : Emit α} {Q : α → Scope → List Instruction → Prop}
    (hxy : ∀ a, x done.length scope = .ok a → y done.length scope = .ok a)
    (h : ordered p y Q scope done) : ordered p x Q scope done :=
  fun a ha => h a (hxy a ha)

theorem ordered_bind {x : Emit α} {f : α → Emit β} {Q : β → Scope → List Instruction → Prop}
    (h : ordered p x (fun v after code => ordered p (f v) Q after code) scope done) :
    ordered p (x >>= f) Q scope done := by
  intro c hc
  obtain ⟨a, b, ha, hb, rfl⟩ := bind_eq_ok hc
  obtain ⟨hcode, hf⟩ := h a ha
  rw [← List.length_append] at hb
  obtain ⟨hrest, hQ⟩ := hf b hb
  rw [List.append_assoc] at hQ
  exact ⟨hcode.append hrest, hQ⟩

/-- A piece without instructions. -/
theorem ordered_silent {x : Emit α} {v : α} {Q : α → Scope → List Instruction → Prop}
    (hx : ∀ n, x n scope = .ok ⟨v, [], after⟩) (h : Q v after done) : ordered p x Q scope done := by
  intro a ha
  obtain rfl := Except.ok.inj ((hx _).symm.trans ha)
  rw [List.append_nil]
  exact ⟨fun k i hi => (nomatch hi), h⟩

theorem ordered_pure {v : α} {Q : α → Scope → List Instruction → Prop} (h : Q v scope done) :
    ordered p (pure v) Q scope done :=
  ordered_silent (fun _ => rfl) h

theorem ordered_fail {e : LoweringError} {Q : α → Scope → List Instruction → Prop} :
    ordered p (Emit.fail e) Q scope done :=
  fun _ ha => nomatch ha

theorem ordered_fresh {Q : Register → Scope → List Instruction → Prop}
    (h : Q scope.registers { scope with registers := scope.registers + 1 } done) :
    ordered p Emit.fresh Q scope done :=
  ordered_silent (fun _ => rfl) h

theorem ordered_find? {name : String} {Q : Option Operand → Scope → List Instruction → Prop}
    (h : Q (scope.find? name) scope done) : ordered p (Emit.find? name) Q scope done :=
  ordered_silent (fun _ => rfl) h

theorem ordered_bindName {name : String} {o : Operand} {Q : Unit → Scope → List Instruction → Prop}
    (h : Q () (scope.bind name o) done) : ordered p (Emit.bindName name o) Q scope done :=
  ordered_silent (fun _ => rfl) h

theorem ordered_instruction {i : Instruction} {Q : Unit → Scope → List Instruction → Prop}
    (hreads : ∀ q ∈ i.reads, Supplied p done q) (h : Q () scope (done ++ [i])) :
    ordered p (Emit.instruction i) Q scope done := by
  intro a ha
  obtain rfl := Except.ok.inj ha
  refine ⟨fun k j hj q hq => ?_, h⟩
  obtain rfl := List.mem_singleton.1 (List.mem_of_getElem? hj)
  exact (hreads q hq).append

/-- The jump comes first. -/
theorem ordered_skippedBy {jump : Nat → Instruction} {body : Emit α}
    {Q : α → Scope → List Instruction → Prop}
    (hreads : ∀ t, ∀ q ∈ (jump t).reads, Supplied p done q)
    (h : ∀ t, ordered p body Q scope (done ++ [jump t])) :
    ordered p (Emit.skippedBy jump body) Q scope done := by
  intro c hc
  unfold skippedBy at hc
  split at hc
  · cases hc
  · rename_i b hb
    obtain rfl := Except.ok.inj hc
    obtain ⟨hbody, hQ⟩ := h (done.length + 1 + b.code.length) b (by rwa [List.length_append])
    rw [List.append_assoc] at hQ
    have hjump : Orderly p done [jump (done.length + 1 + b.code.length)] := by
      intro k i hi q hq
      obtain rfl := List.mem_singleton.1 (List.mem_of_getElem? hi)
      exact (hreads _ q hq).append
    exact ⟨hjump.append hbody, hQ⟩

theorem ordered_checkIndex {index : Operand} {Q : Unit → Scope → List Instruction → Prop}
    (h : Q () scope done) : ordered p (checkIndex index) Q scope done := by
  unfold checkIndex
  split
  · exact ordered_pure h
  · exact ordered_pure h
  · exact ordered_fail

theorem ordered_checkContainer {operand : Operand} {Q : Unit → Scope → List Instruction → Prop}
    (h : Q () scope done) : ordered p (checkContainer operand) Q scope done := by
  unfold checkContainer
  split
  · exact ordered_pure h
  · exact ordered_pure h
  · exact ordered_pure h
  · exact ordered_fail

/-! ## Single instructions -/

/-- What is known behind an expression: its value may be read, and so may all variables. -/
abbrev Readable (p : Program) (o : Operand) (scope : Scope) (done : List Instruction) : Prop :=
  Supplied p done o.register ∧ Bound p scope done

theorem into_ordered {i : Register → Instruction} {kind : Option Kind}
    (hdest : ∀ r, (i r).dest? = some r) (hb : Bound p scope done)
    (hreads : ∀ q ∈ (i scope.registers).reads, Supplied p done q) :
    ordered p (into i kind) (Readable p) scope done := by
  refine ordered_bind (ordered_fresh (ordered_bind (ordered_instruction hreads (ordered_pure ?_))))
  exact ⟨supplied_of_dest (hdest _), hb.append⟩

theorem arith_ordered {op : Arith} {l r : Operand} (hb : Bound p scope done)
    (hl : Supplied p done l.register) (hr : Supplied p done r.register) :
    ordered p (arith op l r) (Readable p) scope done := by
  have hreads : ∀ q ∈ [l.register, r.register], Supplied p done q := by simp [hl, hr]
  unfold arith
  split
  · exact into_ordered (fun _ => rfl) hb hreads
  · exact into_ordered (fun _ => rfl) hb hreads
  · exact into_ordered (fun _ => rfl) hb hreads

theorem get_ordered {c k : Operand} (hb : Bound p scope done) (hc : Supplied p done c.register)
    (hk : Supplied p done k.register) : ordered p (get c k) (Readable p) scope done := by
  have hreads : ∀ q ∈ [c.register, k.register], Supplied p done q := by simp [hc, hk]
  unfold get
  split
  · exact ordered_bind (ordered_checkIndex (into_ordered (fun _ => rfl) hb hreads))
  · exact into_ordered (fun _ => rfl) hb hreads
  · exact into_ordered (fun _ => rfl) hb hreads

theorem put_ordered {c k v : Operand} (hb : Bound p scope done) (hc : Supplied p done c.register)
    (hk : Supplied p done k.register) (hv : Supplied p done v.register) :
    ordered p (put c k v) (Readable p) scope done := by
  have hset : ∀ {i : Instruction} {kind : Option Kind},
      i.reads = [c.register, k.register, v.register] →
      ordered p (do Emit.instruction i; pure (⟨c.register, kind⟩ : Operand)) (Readable p)
        scope done := by
    intro i kind hi
    refine ordered_bind (ordered_instruction ?_ (ordered_pure ⟨hc.append, hb.append⟩))
    simp [hi, hc, hk, hv]
  unfold put
  split
  · exact ordered_bind (ordered_checkIndex (hset rfl))
  · exact hset rfl
  · exact hset rfl

theorem putEntries_ordered {map : Register} {pairs : List (Operand × Operand)}
    (hb : Bound p scope done) (hmap : Supplied p done map)
    (hpairs : ∀ q ∈ pairs, Supplied p done q.1.register ∧ Supplied p done q.2.register) :
    ordered p (putEntries map pairs) (fun _ after code => Supplied p code map ∧ Bound p after code)
      scope done := by
  induction pairs generalizing done with
  | nil => exact ordered_pure ⟨hmap, hb⟩
  | cons q rest ih =>
    obtain ⟨hkey, hvalue⟩ := hpairs q List.mem_cons_self
    refine ordered_bind (ordered_instruction ?_ (ih hb.append hmap.append fun q hq => ?_))
    · simp [Instruction.reads, hmap, hkey, hvalue]
    · obtain ⟨hkey, hvalue⟩ := hpairs q (List.mem_cons_of_mem _ hq)
      exact ⟨hkey.append, hvalue.append⟩

/-- An assignment writes its variable before the variable can be read. -/
theorem assign_ordered {name : String} {value : Operand} (hb : Bound p scope done)
    (hv : Supplied p done value.register) :
    ordered p (assign name value) (fun _ => Bound p) scope done := by
  have hcopy : ∀ {register : Register} {scope' : Scope}, Bound p scope' done →
      ordered p (do
        Emit.instruction (.copy value.register register)
        Emit.bindName name ⟨register, value.kind⟩) (fun _ => Bound p) scope' done := by
    intro register scope' hb'
    refine ordered_bind
      (ordered_instruction ?_ (ordered_bindName (hb'.append.bind (supplied_of_dest rfl))))
    simp [Instruction.reads, hv]
  refine ordered_bind (ordered_find? ?_)
  rcases scope.find? name with _ | ⟨register, _ | held⟩
  · exact ordered_bind (ordered_fresh (hcopy hb))
  · exact ordered_bind (ordered_pure (hcopy hb))
  · refine ordered_bind ?_
    simp only [target]
    split
    · exact ordered_pure (hcopy hb)
    · split
      · exact ordered_pure (hcopy hb)
      · exact ordered_fail

/-! ## Expressions -/

/-- At every site, the code of an expression and the code that stores into it read nothing but what
is supplied. -/
structure OrderedAt (p : Program) (e : Expr) : Prop where
  expr : ∀ {scope done}, Site p (.value e) done.length scope → Bound p scope done →
    ordered p (Lowering.expr e) (Readable p) scope done
  store :
      ∀ {scope done value}, Site p (.store e value) done.length scope → Bound p scope done →
        Supplied p done value.register →
        ordered p (Lowering.store e value) (fun _ => Bound p) scope done

/-- Operands one after the other. -/
theorem exprs_ordered {task : Task} {n : Nat} {base : Scope} {earlier es : List Expr}
    {os : List Operand} (hsite : Site p task n base) (hops : task.operands = earlier ++ es)
    (hpre : (exprs earlier).Yields n base os done.length scope) (h : ∀ e ∈ es, OrderedAt p e)
    (hb : Bound p scope done) :
    ordered p (exprs es) (fun new after code => (∀ o ∈ new, Supplied p code o.register) ∧
      Bound p after code) scope done := by
  induction es generalizing earlier os scope done with
  | nil =>
    rw [exprs]
    exact ordered_pure ⟨fun o ho => absurd ho List.not_mem_nil, hb⟩
  | cons e es ih =>
    have hops' : task.operands = (earlier ++ [e]) ++ es := by simpa using hops
    rw [exprs]
    refine ordered_bind
      (ordered_mono ((h e List.mem_cons_self).expr (.operand hsite hops hpre) hb) ?_)
    rintro o mid code hyields ⟨ho, hb₁⟩
    refine ordered_bind (ordered_mono (ih hops' (exprs_snoc hpre hyields)
      (fun e he => h e (List.mem_cons_of_mem _ he)) hb₁) ?_)
    rintro os after rest _ ⟨hos, hb₂⟩
    refine ordered_pure ⟨fun q hq => ?_, hb₂⟩
    rcases List.mem_cons.1 hq with rfl | hq
    · exact ho.append
    · exact hos q hq

/-- The result of `and` and `or` is written before the jump reads it. -/
theorem connect_ordered {jump : Register → Nat → Instruction} {l : Operand} {right : Expr}
    (hjump : ∀ r t, (jump r t).reads = [r]) (hr : OrderedAt p right)
    (hsite : Site p (.value right) (done.length + 2)
      { scope with registers := scope.registers + 1 })
    (hl : Supplied p done l.register) (hb : Bound p scope done) :
    ordered p (connect jump l (expr right)) (Readable p) scope done := by
  refine ordered_bind
    (ordered_bind (ordered_fresh (ordered_bind (ordered_instruction ?_ (ordered_pure ?_)))))
  · intro q hq
    exact List.mem_singleton.1 hq ▸ hl
  have hresult : Supplied p (done ++ [.copy l.register scope.registers]) scope.registers :=
    supplied_of_dest rfl
  refine ordered_bind (ordered_skippedBy (fun t q hq => ?_) fun t => ?_)
  · rw [hjump, List.mem_singleton] at hq
    exact hq ▸ hresult
  · have hentered : Bound p { scope with registers := scope.registers + 1 }
        (done ++ [.copy l.register scope.registers] ++ [jump scope.registers t]) := hb.append.append
    refine ordered_bind (ordered_mono (hr.expr (by simpa using hsite) hentered) ?_)
    rintro v mid code _ ⟨hv, hb'⟩
    refine ordered_bind (ordered_instruction ?_ (ordered_pure (ordered_pure ⟨?_, hb'.append⟩)))
    · intro q hq
      exact List.mem_singleton.1 hq ▸ hv
    · exact supplied_of_dest rfl

/-- A store into an element reads the container and the key, and puts the value in. -/
theorem store_element_ordered {base key : Expr} {value : Operand} (hbase : OrderedAt p base)
    (hkey : OrderedAt p key) (hsite : Site p (.store (.element base key) value) done.length scope)
    (hb : Bound p scope done) (hv : Supplied p done value.register) :
    ordered p (store (.element base key) value) (fun _ => Bound p) scope done := by
  intro a ha
  have htarget := target_of_store ha
  refine (?_ : ordered p _ (fun _ => Bound p) scope done) a ha
  rw [store]
  refine ordered_bind (ordered_mono (hbase.expr (hsite.first rfl) hb) ?_)
  rintro c mid code₁ hyc ⟨hc, hb₁⟩
  refine ordered_bind (ordered_mono (hkey.expr (hsite.second rfl hyc) hb₁) ?_)
  rintro k after code₂ hyk ⟨hk, hb₂⟩
  refine ordered_bind (ordered_mono (put_ordered hb₂ hc.append hk hv.append.append) ?_)
  rintro o last code₃ hyo ⟨ho, hb₃⟩
  rcases htarget with ⟨name, rfl⟩ | ⟨inner, innerKey, rfl⟩
  · exact ordered_bindName (hb₃.bind ho)
  · exact hbase.store (.back hsite (hyc.bind (hyk.bind hyo))) hb₃ ho

/-- What is known behind an expression. The value of a call of `print` is not written. -/
abbrev ReadableBy (p : Program) (e : Expr) (o : Operand) (scope : Scope)
    (code : List Instruction) : Prop :=
  ((∀ args, e ≠ .call "print" args) → Supplied p code o.register) ∧ Bound p scope code

theorem map_ordered {entries : List (Expr × Expr)} {os : List Operand}
    (hos : ∀ o ∈ os, Supplied p done o.register) (hb : Bound p scope done) :
    ordered p (finish (.map entries) os) (Readable p) scope done := by
  refine ordered_bind
    (ordered_mono (into_ordered (fun _ => rfl) hb fun q hq => absurd hq List.not_mem_nil) ?_)
  rintro o mid code _ ⟨ho, hb'⟩
  refine ordered_bind (ordered_mono (putEntries_ordered hb' ho fun q hq => ?_) ?_)
  · obtain ⟨hkey, hvalue⟩ := mem_pairUp hq
    exact ⟨(hos _ hkey).append, (hos _ hvalue).append⟩
  · exact fun _ after code _ h => ordered_pure h

theorem call_ordered {name : String} {args : List Expr} {os : List Operand}
    (hos : ∀ q ∈ os.map Operand.register, Supplied p done q) (hb : Bound p scope done) :
    ordered p (finish (.call name args) os) (ReadableBy p (.call name args)) scope done := by
  simp only [finish]
  split
  · rename_i hname
    subst hname
    refine ordered_bind (ordered_instruction hos (ordered_bind (ordered_fresh ?_)))
    exact ordered_pure ⟨fun hne => absurd rfl (hne args), hb.append⟩
  · split
    · refine ordered_mono
        (ordered_bind (ordered_checkContainer (into_ordered (fun _ => rfl) hb hos))) ?_
      exact fun _ _ _ _ h => ⟨fun _ => h.1, h.2⟩
    · exact ordered_fail

theorem negation_ordered {op : UnaryOp} {o : Operand} (ho : Supplied p done o.register)
    (hb : Bound p scope done) : ordered p (negation op o) (Readable p) scope done := by
  have hreads : ∀ q ∈ [o.register], Supplied p done q := fun q hq => List.mem_singleton.1 hq ▸ ho
  cases op with
  | not => exact into_ordered (fun _ => rfl) hb hreads
  | negate => exact into_ordered (fun _ => rfl) hb hreads

/-- What was stored is supplied behind the store. -/
theorem stored_ordered {target : Expr} {v : Operand} (hv : Supplied p done v.register)
    (hstore : ordered p (store target v) (fun _ => Bound p) scope done) :
    ordered p (store target v >>= fun _ => pure v) (Readable p) scope done :=
  ordered_bind (ordered_mono hstore fun _ _ _ _ hb => ordered_pure ⟨hv.append, hb⟩)

/-- Operators; behind the operands of `and`, `or` and assignments there is more code. -/
theorem binary_ordered {left right : Expr} {op : BinaryOp} {n : Nat} {base : Scope}
    {os : List Operand} (hleft : OrderedAt p left) (hright : OrderedAt p right)
    (hsite : Site p (.value (.binary left op right)) n base)
    (hyields : (exprs (Expr.binary left op right).operands).Yields n base os done.length scope)
    (hos : ∀ o ∈ os, Supplied p done o.register) (hb : Bound p scope done) :
    ordered p (finish (.binary left op right) os) (Readable p) scope done := by
  cases op with
  | arith op =>
    obtain ⟨l, r, _, _, rfl, _, _⟩ := yields_of_exprs_two hyields
    exact arith_ordered hb (hos l List.mem_cons_self) (hos r (by simp))
  | relation op =>
    obtain ⟨l, r, _, _, rfl, _, _⟩ := yields_of_exprs_two hyields
    exact into_ordered (fun _ => rfl) hb (by simpa [Instruction.reads] using hos)
  | and =>
    obtain ⟨l, rfl, hl⟩ := exists_of_exprs_one hyields
    exact connect_ordered (fun _ _ => rfl) hright (.right hsite (Or.inl rfl) hl)
      (hos l List.mem_cons_self) hb
  | or =>
    obtain ⟨l, rfl, hl⟩ := exists_of_exprs_one hyields
    exact connect_ordered (fun _ _ => rfl) hright (.right hsite (Or.inr rfl) hl)
      (hos l List.mem_cons_self) hb
  | assign =>
    obtain ⟨v, rfl, hvalue⟩ := exists_of_exprs_one hyields
    have hv := hos v List.mem_cons_self
    exact stored_ordered hv (hleft.store (.assign hsite hvalue) hb hv)
  | update op =>
    obtain ⟨l, r, m, mid, rfl, hl, hr⟩ := yields_of_exprs_two hyields
    refine ordered_bind
      (ordered_mono (arith_ordered hb (hos l List.mem_cons_self) (hos r (by simp))) ?_)
    rintro v mid' code hyv ⟨hv, hb₁⟩
    exact stored_ordered hv (hleft.store (.update hsite (hl.bind (hr.bind hyv))) hb₁ hv)

/-- What an expression does with its operands. -/
theorem finish_ordered {e : Expr} {n : Nat} {base : Scope} {os : List Operand}
    (hparts : ∀ left op right, e = .binary left op right → OrderedAt p left ∧ OrderedAt p right)
    (hsite : Site p (.value e) n base)
    (hyields : (exprs e.operands).Yields n base os done.length scope)
    (hos : ∀ o ∈ os, Supplied p done o.register) (hb : Bound p scope done) :
    ordered p (finish e os) (ReadableBy p e) scope done := by
  -- Only calls of `print` yield a register that is not written.
  have hvalue : ∀ {x : Emit Operand}, ordered p x (Readable p) scope done →
      ordered p x (ReadableBy p e) scope done :=
    fun hx => ordered_mono hx fun _ _ _ _ h => ⟨fun _ => h.1, h.2⟩
  have hreads : ∀ q ∈ os.map Operand.register, Supplied p done q := by
    intro q hq
    obtain ⟨o, ho, rfl⟩ := List.mem_map.1 hq
    exact hos o ho
  cases e with
  | literal v =>
    exact hvalue (into_ordered (fun _ => rfl) hb fun q hq => absurd hq List.not_mem_nil)
  | ident name =>
    refine ordered_bind (ordered_find? ?_)
    cases hfind : scope.find? name with
    | none => exact ordered_fail
    | some b => exact ordered_pure ⟨fun _ => hb name b hfind, hb⟩
  | group inner =>
    obtain ⟨o, rfl, _⟩ := exists_of_exprs_one hyields
    exact hvalue (ordered_pure ⟨hos o List.mem_cons_self, hb⟩)
  | array items => exact hvalue (into_ordered (fun _ => rfl) hb hreads)
  | map entries => exact hvalue (map_ordered hos hb)
  | element container key =>
    obtain ⟨c, k, _, _, rfl, _, _⟩ := yields_of_exprs_two hyields
    exact hvalue (get_ordered hb (hos c List.mem_cons_self) (hos k (by simp)))
  | call name args => exact call_ordered hreads hb
  | unary op operand =>
    obtain ⟨o, rfl, _⟩ := exists_of_exprs_one hyields
    exact hvalue (negation_ordered (hos o List.mem_cons_self) hb)
  | binary left op right =>
    obtain ⟨hleft, hright⟩ := hparts left op right rfl
    exact hvalue (binary_ordered hleft hright hsite hyields hos hb)

/-- No expression reads a register that is not supplied. -/
theorem expr_ordered (e : Expr) : OrderedAt p e := by
  induction e using Expr.inductOperands with
  | step e hops hparts =>
    refine ⟨fun {scope done} hsite hb => ?_, fun {scope done value} hsite hb hv => ?_⟩
    · have hnone : (exprs []).Yields done.length scope [] done.length scope := ⟨[], rfl, rfl⟩
      have hall : ordered p (expr e) (ReadableBy p e) scope done := by
        refine ordered_congr (fun a ha => expr_factors ha)
          (ordered_bind (ordered_mono (exprs_ordered hsite rfl hnone hops hb) ?_))
        rintro os after code hyields ⟨hos, hb'⟩
        exact finish_ordered hparts hsite hyields hos hb'
      -- A call of `print` yields a register that may be read without having been written.
      refine ordered_mono hall fun o after code hyields h => ⟨?_, h.2⟩
      by_cases hprint : ∃ args, e = .call "print" args
      · obtain ⟨args, rfl⟩ := hprint
        exact Or.inr ⟨args, _, _, o, _, _, hsite, hyields, rfl⟩
      · exact h.1 fun args heq => hprint ⟨args, heq⟩
    · cases e with
      | ident name => exact assign_ordered hb hv
      | element base key =>
        exact store_element_ordered (hops base (by simp [Expr.operands]))
          (hops key (by simp [Expr.operands])) hsite hb hv
      | _ => exact ordered_fail

theorem statements_ordered {earlier later : Program} {before rest : Emitted Unit}
    (hp : p = earlier ++ later) (hbefore : statements 0 .empty earlier = .ok before)
    (hb : Bound p before.scope before.code)
    (hrest : statements before.code.length before.scope later = .ok rest) :
    Orderly p before.code rest.code := by
  -- On the statements to come: each joins those before it.
  induction later generalizing earlier before rest with
  | nil =>
    obtain rfl := Except.ok.inj hrest
    exact fun k i hi => nomatch hi
  | cons st later ih =>
    obtain ⟨first, others, hfirst, hothers, rfl⟩ := statements_cons hrest
    obtain ⟨horder, _, hb'⟩ := (expr_ordered st.expr).expr (.statement hp hbefore) hb first hfirst
    have hsnoc := statements_snoc hbefore (by rwa [Nat.zero_add])
    refine horder.append (ih (by simpa using hp) hsnoc hb' ?_)
    rwa [List.length_append]

/-! ## Whose a register is -/

variable {all : Emitted Unit}

/-- A variable keeps its register from the site on where it is in scope. -/
theorem Site.variableRegister {task : Task} {n : Nat} {x : String} {b : Operand}
    (hall : statements 0 .empty p = .ok all) (h : Site p task n scope)
    (hb : scope.find? x = some b) : VariableRegister p x b.register := by
  obtain ⟨a, front, behind, haround⟩ := h.surrounded hall
  have hsince := (lower_grown h.wf haround.lowered).since.trans haround.since
  obtain ⟨c, hc, hcb⟩ := hsince.keeps hb
  exact ⟨all, c, hall, hc, hcb⟩

/-- The result of an expression is still where it was when all of the program is lowered. -/
theorem ResultOf.resides {e : Expr} (hall : statements 0 .empty p = .ok all) (h : ResultOf p e r) :
    ∃ base o, o.register = r ∧ Resides base e.alias? o all.scope := by
  obtain ⟨n, scope, o, stop, after, hsite, ⟨piece, hpiece, _⟩, hr⟩ := h
  obtain ⟨a, front, behind, haround⟩ := hsite.surrounded hall
  obtain rfl := Except.ok.inj ((Task.lower_value hpiece).symm.trans haround.lowered)
  obtain ⟨_, hres⟩ := expr_grown e.assignsOnly_true hsite.wf hpiece
  exact ⟨scope, o, hr, hres.since haround.since⟩

/-- The code of a call of `print` leaves the register that it yields alone. -/
theorem dest_lt_of_print {n : Nat} {args : List Expr} {a : Emitted Operand} (hwf : scope.WF)
    (h : expr (.call "print" args) n scope = .ok a) :
    ∀ i ∈ a.code, ∀ q, i.dest? = some q → q < a.value.register := by
  obtain ⟨x, z, hx, hz, rfl⟩ := bind_eq_ok (expr_factors h)
  obtain rfl := Except.ok.inj hz
  obtain ⟨hgrown, _⟩ := exprs_grown (A := fun _ => True) (fun e _ => e.assignsOnly_true) hwf hx
  intro i hi q hq
  rcases List.mem_append.1 hi with hi | hi
  · exact (hgrown.dests i hi q hq).1
  · obtain rfl := List.mem_singleton.1 hi
    cases hq

/-- No instruction writes a register that stands for what a call of `print` yields. -/
theorem PrintResult.dest_ne {i : Instruction} (hall : statements 0 .empty p = .ok all)
    (h : PrintResult p r) (hi : i ∈ all.code) : i.dest? ≠ some r := by
  obtain ⟨args, n, scope, o, stop, after, hsite, ⟨piece, hpiece, _⟩, rfl⟩ := h
  obtain ⟨a, front, behind, haround⟩ := hsite.surrounded hall
  obtain rfl := Except.ok.inj ((Task.lower_value hpiece).symm.trans haround.lowered)
  obtain ⟨_, hres⟩ := expr_grown (Expr.call "print" args).assignsOnly_true hsite.wf hpiece
  obtain ⟨hle, hne⟩ := hres.unnamed rfl
  intro hdest
  rw [haround.code_eq] at hi
  rcases List.mem_append.1 hi with hi | hi
  · rcases List.mem_append.1 hi with hi | hi
    · exact Nat.not_lt.2 hle (haround.front_lt i hi _ hdest)
    · exact Nat.lt_irrefl _ (dest_lt_of_print hsite.wf hpiece i hi _ hdest)
  · rcases haround.behind_outside i hi _ hdest with
      hout | (hout | ⟨x, b, _, hb, hreg⟩) | ⟨⟨_, _, heq⟩, _⟩
    · exact Nat.not_lt.2 hle hout
    · exact Nat.not_lt.2 hout hres.lt
    · exact hne x b hb hreg
    · cases heq

/-- A register that is read is supplied by what stands in front. -/
theorem orderly_statements (hall : statements 0 .empty p = .ok all) : Orderly p [] all.code := by
  have hstart : statements 0 .empty ([] : Program) = .ok ⟨(), [], .empty⟩ := rfl
  exact statements_ordered (List.nil_append p).symm hstart (fun _ _ hb => nomatch hb) hall

/-- A register that an instruction mentions has been issued. -/
theorem mentioned_lt {i : Instruction} (hall : statements 0 .empty p = .ok all) (hi : i ∈ all.code)
    (hr : r ∈ i.reads ∨ i.dest? = some r) : r < all.scope.registers := by
  have hdest := (statements_grown (.refl Scope.empty_wf) hall).dests
  rcases hr with hr | hr
  · obtain ⟨k, hk⟩ := List.mem_iff_getElem?.1 hi
    rcases orderly_statements hall k i hk r hr with ⟨w, hw, hwr⟩ | ⟨args, hprint⟩
    · exact (hdest w (List.mem_of_mem_take hw) r hwr).1
    · obtain ⟨base, o, rfl, hres⟩ := hprint.resides hall
      exact hres.lt
  · exact (hdest i hi r hr).1

theorem Supplied.earlier {code : List Instruction} {k : Nat} (h : Supplied p (code.take k) r) :
    (∃ (j : Nat) (w : Instruction), j < k ∧ code[j]? = some w ∧ w.dest? = some r) ∨
      PrintResult p r := by
  rcases h with ⟨w, hw, hwr⟩ | hprint
  · obtain ⟨j, hj⟩ := List.mem_iff_getElem?.1 hw
    rw [List.getElem?_take] at hj
    split at hj
    · rename_i hlt
      exact Or.inl ⟨j, w, hlt, hj, hwr⟩
    · cases hj
  · exact Or.inr hprint

theorem VariableRegister.eq {x : String} {q : Register} (hr : VariableRegister p x r)
    (hq : VariableRegister p x q) : r = q := by
  obtain ⟨all, b, hall, hb, rfl⟩ := hr
  obtain ⟨all', c, hall', hc, rfl⟩ := hq
  obtain rfl := Except.ok.inj (hall.symm.trans hall')
  exact congrArg Operand.register (Option.some.inj (hb.symm.trans hc))

/-- No two variables share a register. -/
theorem VariableRegister.apart {x y : String} (hx : VariableRegister p x r)
    (hy : VariableRegister p y r) : x = y := by
  obtain ⟨all, b, hall, hb, hbr⟩ := hx
  obtain ⟨all', c, hall', hc, hcr⟩ := hy
  obtain rfl := Except.ok.inj (hall.symm.trans hall')
  exact (statements_grown (.refl Scope.empty_wf) hall).since.wf.apart hb hc (hbr.trans hcr.symm)

/-- The result of an expression is the register of a variable only if the expression is the
variable. -/
theorem ResultOf.alias? {e : Expr} {x : String} (h : ResultOf p e r) (hx : VariableRegister p x r) :
    e.alias? = some x := by
  obtain ⟨all, b, hall, hb, hbr⟩ := hx
  obtain ⟨base, o, hor, hres⟩ := h.resides hall
  cases hown : e.alias? with
  | none => exact absurd (hbr.trans hor.symm) ((hres.unnamed hown).2 x b hb)
  | some y =>
    obtain ⟨c, hc, hco⟩ := hres.named hown
    rw [VariableRegister.apart ⟨all, c, hall, hc, hco.trans hor⟩ ⟨all, b, hall, hb, hbr⟩]

end Lowering

/-! ## The register file -/

theorem Routine.length_slots_start (routine : Routine) (sink : Sink) :
    (routine.start sink).registers.slots.length = routine.registers :=
  List.length_replicate

theorem Registers.length_set {rs : Registers} {r : Register} {v : Value} (h : r < rs.slots.length) :
    (rs.set r v).slots.length = rs.slots.length := by
  unfold Registers.set
  rw [if_pos h]
  exact List.length_set

namespace State

variable {code : List Instruction} {s t : State}

/-- A step that writes an existing register makes the file no longer. -/
theorem Step.length_slots (h : Step code s t)
    (hdest : ∀ i ∈ code, ∀ r, i.dest? = some r → r < s.registers.slots.length) :
    t.registers.slots.length = s.registers.slots.length := by
  obtain ⟨i, hi, hit⟩ := h
  obtain ⟨effect, he, hp⟩ := execute_eq_none_iff.1 hit
  have hshape := Instruction.allows_of_effect he
  have ht := congrArg Prod.fst hp
  cases effect with
  | write r v =>
    subst ht
    exact Registers.length_set (hdest i (List.mem_of_getElem? hi) r hshape)
  | print line => subst ht; rfl
  | jump target => subst ht; rfl
  | proceed => subst ht; rfl

theorem Reaches.length_slots (h : Reaches code s t)
    (hdest : ∀ i ∈ code, ∀ r, i.dest? = some r → r < s.registers.slots.length) :
    t.registers.slots.length = s.registers.slots.length := by
  induction h with
  | refl => rfl
  | tail _ hstep ih => rw [hstep.length_slots (by rwa [ih]), ih]

/-- No run makes the file longer, also if its last instruction fails. -/
theorem runFor_length_slots
    (hdest : ∀ i ∈ code, ∀ r, i.dest? = some r → r < s.registers.slots.length) (steps : Nat) :
    (runFor code steps s).1.registers.slots.length = s.registers.slots.length := by
  rcases hrun : runFor code steps s with ⟨t, ending⟩
  have hspec := runFor_spec hrun
  cases ending with
  | finished => exact hspec.1.length_slots hdest
  | stopped => exact Reaches.length_slots hspec hdest
  | failed index opcode fault =>
    obtain ⟨u, i, hu, _, _, _, hexec⟩ := hspec
    rw [registers_of_fault hexec]
    exact hu.length_slots hdest

end State

/-! ## Programs -/

namespace Program

open Lowering

/-- **Register discipline.** The instructions of a program mention only registers that the routine
was given, so no run makes the register file longer. A register that is read is written by an
instruction with a smaller index, or stands for what a call of `print` yields, and such a register
is never written. Every variable has one register, from its first assignment on, and shares it with
no other variable, nor with the result of an expression, unless the expression is the variable, in
parentheses or assigned to something else. -/
theorem register_discipline {p : Program} {routine : Routine} (h : p.lower = .ok routine) :
    (∀ i ∈ routine.code, ∀ r, r ∈ i.reads ∨ i.dest? = some r → r < routine.registers) ∧
      (∀ steps sink, (State.runFor routine.code steps
        (routine.start sink)).1.registers.slots.length = routine.registers) ∧
      (∀ (k : Nat) (i : Instruction), routine.code[k]? = some i →
        ∀ r ∈ i.reads,
          (∃ (j : Nat) (w : Instruction), j < k ∧ routine.code[j]? = some w ∧ w.dest? = some r) ∨
            PrintResult p r) ∧
      (∀ r, PrintResult p r → ∀ i ∈ routine.code, i.dest? ≠ some r) ∧
      (∀ task n scope x b, Site p task n scope →
        scope.find? x = some b → VariableRegister p x b.register) ∧
      (∀ x r q, VariableRegister p x r → VariableRegister p x q → r = q) ∧
      (∀ x y r, VariableRegister p x r → VariableRegister p y r → x = y) ∧
      ∀ e x r, ResultOf p e r → VariableRegister p x r → e.alias? = some x := by
  obtain ⟨all, hall, rfl⟩ := statements_of_lower h
  refine ⟨fun i hi r hr => mentioned_lt hall hi hr, fun steps sink => ?_, fun k i hi r hr => ?_,
    fun r hr i hi => hr.dest_ne hall hi,
    fun task n scope x b hsite hb => hsite.variableRegister hall hb,
    fun x r q hr hq => hr.eq hq, fun x y r hx hy => hx.apart hy, fun e x r he hx => he.alias? hx⟩
  · rw [runFor_length_slots, Routine.length_slots_start]
    intro i hi r hr
    rw [Routine.length_slots_start]
    exact mentioned_lt hall hi (Or.inr hr)
  · have hsupplied := orderly_statements hall k i hi r hr
    rw [List.nil_append] at hsupplied
    exact hsupplied.earlier

/-- `y = print(1)` -/
def printedValue : Program :=
  [⟨.binary (.ident "y") .assign (.call "print" [.literal (.number ⟨1, 0⟩)]), default⟩]

/-- The register that `printedValue` copies into its variable is written by no instruction. -/
theorem register_discipline_printedValue : ∃ routine, printedValue.lower = .ok routine ∧
    PrintResult printedValue 1 ∧ ∀ i ∈ routine.code, i.dest? ≠ some 1 := by
  have hlower : printedValue.lower =
      .ok ⟨[.load (.number ⟨1, 0⟩) 0, .print [0], .copy 1 2], 3⟩ := by
    cbv
  obtain ⟨_, _, hreads, hunwritten, _⟩ := register_discipline hlower
  have hprint : PrintResult printedValue 1 := by
    rcases hreads 2 (.copy 1 2) rfl 1 List.mem_cons_self with ⟨j, w, hj, hw, hdest⟩ | hprint
    · -- Neither of the two instructions in front writes it.
      have hj' : j = 0 ∨ j = 1 := by omega
      rcases hj' with rfl | rfl
      · obtain rfl := Option.some.inj hw
        cases hdest
      · obtain rfl := Option.some.inj hw
        cases hdest
    · exact hprint
  exact ⟨_, hlower, hprint, hunwritten 1 hprint⟩

end Program

end LineScript
