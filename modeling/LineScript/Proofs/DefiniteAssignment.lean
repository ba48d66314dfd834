import LineScript.Proofs.Code.Sites

/-!
# Definite assignment

Lowering refuses a name that no earlier text assigns. What comes earlier in the text need not have
been carried out: the right operand of `and` and `or` may be skipped, and the variables it assigns
are in scope all the same. `Expr.settle` is the check that goes by what is carried out. It keeps the
variables that are certain to have values, and behind `and` and `or` these are the ones of the left
operand.

The invariant is `Known`: the registers of the variables in a list are filled. Registers are never
emptied, so it is kept by everything that follows. Every other register is written before it is
read, for it is issued where the value is computed; the register of a call of `print` is the
exception, and is not read if the call is a statement.

The induction serves two theorems at once. If `checked` holds, the program passes the check and no
register is found empty. If not, nothing is known about variables, and a register that is found
empty is one that stands for a variable where the program reads it.
-/

set_option autoImplicit false

namespace LineScript

open State Emit

/-! ## The check -/

namespace Expr

mutual

/-- The variables that are certain to have values behind an expression, if those in the list have
before it. None if the expression reads a variable that is not certain to have one. -/
def settle : Expr → List String → Option (List String)
  | .literal _, known => some known
  | .ident name, known => if name ∈ known then some known else none
  | .group inner, known => settle inner known
  | .array items, known => settleAll items known
  | .map entries, known => settlePairs entries known
  | .element base key, known => (settle base known).bind (settle key)
  | .call _ args, known => settleAll args known
  | .unary _ operand, known => settle operand known
  | .binary left (.arith _) right, known => (settle left known).bind (settle right)
  | .binary left (.relation _) right, known => (settle left known).bind (settle right)
  -- The right operand may be skipped, so what it assigns does not count.
  | .binary left .and right, known =>
    (settle left known).bind fun known => (settle right known).map fun _ => known
  | .binary left .or right, known =>
    (settle left known).bind fun known => (settle right known).map fun _ => known
  | .binary target .assign value, known => (settle value known).bind (settleStore target)
  | .binary target (.update _) value, known =>
    ((settle target known).bind (settle value)).bind (settleStore target)

/-- Expressions one after the other. -/
def settleAll : List Expr → List String → Option (List String)
  | [], known => some known
  | e :: rest, known => (settle e known).bind (settleAll rest)

/-- Keys and values one after the other. -/
def settlePairs : List (Expr × Expr) → List String → Option (List String)
  | [], known => some known
  | (key, value) :: rest, known => ((settle key known).bind (settle value)).bind (settlePairs rest)

/-- A store reads the containers on the way to its target. A variable that is its target has a value
then. -/
def settleStore : Expr → List String → Option (List String)
  | .ident name, known => some (name :: known)
  | .element base key, known =>
    ((settle base known).bind (settle key)).bind fun known =>
      match base with
      | .ident _ => some known
      | _ => settleStore base known
  | _, _ => none

end

/-- What is certain behind an expression, once it is certain behind its operands. -/
def settleRest : Expr → List String → Option (List String)
  | .ident name, known => if name ∈ known then some known else none
  | .binary _ .and right, known => (settle right known).map fun _ => known
  | .binary _ .or right, known => (settle right known).map fun _ => known
  | .binary target .assign _, known => settleStore target known
  | .binary target (.update _) _, known => settleStore target known
  | _, known => some known

theorem settlePairs_eq (entries : List (Expr × Expr)) (known : List String) :
    settlePairs entries known = settleAll (entries.flatMap fun p => [p.1, p.2]) known := by
  induction entries generalizing known with
  | nil => rfl
  | cons p rest ih =>
    obtain ⟨key, value⟩ := p
    simp only [settlePairs, List.flatMap_cons, List.cons_append, List.nil_append, settleAll,
      Option.bind_assoc]
    refine Option.bind_congr fun known _ => Option.bind_congr fun known _ => ih known

/-- The check of an expression is that of its operands, and then the rest. -/
theorem settle_factors (e : Expr) (known : List String) :
    settle e known = (settleAll e.operands known).bind (settleRest e) := by
  cases e with
  | literal v => rfl
  | ident name => rfl
  | map entries =>
    rw [settle, settlePairs_eq]
    exact (Option.bind_fun_some _).symm
  | binary left op right =>
    cases op with
    | arith op =>
      simp only [settle, operands, settleAll, Option.bind_fun_some]
      exact (Option.bind_fun_some _).symm
    | relation op =>
      simp only [settle, operands, settleAll, Option.bind_fun_some]
      exact (Option.bind_fun_some _).symm
    | and =>
      simp only [settle, operands, settleAll, Option.bind_fun_some]
      rfl
    | or =>
      simp only [settle, operands, settleAll, Option.bind_fun_some]
      rfl
    | assign =>
      simp only [settle, operands, settleAll, Option.bind_fun_some]
      rfl
    | update op =>
      simp only [settle, operands, settleAll, Option.bind_fun_some]
      rfl
  | _ =>
    simp only [settle, operands, settleAll, Option.bind_fun_some]
    exact (Option.bind_fun_some _).symm

end Expr

/-- The check of a program goes from statement to statement. -/
def Program.settle : Program → List String → Option (List String)
  | [], known => some known
  | st :: rest, known => (st.expr.settle known).bind (Program.settle rest)

/-- Every variable that the program reads is certain to have a value by then. -/
def Program.DefinitelyAssigned (p : Program) : Prop := (p.settle []).isSome = true

namespace Lowering

/-! ## The invariant -/

variable {checked : Prop} {p : Program} {code : List Instruction} {scope after : Scope}
    {s t : State} {known found : List String} {r : Register}

/-- The register stands for a variable where the program reads the variable. -/
def ReadsVariable (p : Program) (r : Register) : Prop :=
  ∃ x n scope b, Site p (.value (.ident x)) n scope ∧ scope.find? x = some b ∧ b.register = r

/-- The register is filled, or may be found empty. -/
def Spared (checked : Prop) (p : Program) (s : State) (r : Register) : Prop :=
  s.registers.get? r = none → ¬ checked ∧ ReadsVariable p r

/-- The variables in the list have values, if the program is checked. -/
def Known (checked : Prop) (known : List String) (scope : Scope) (s : State) : Prop :=
  checked → ∀ x ∈ known, ∃ b, scope.find? x = some b ∧ s.registers.get? b.register ≠ none

/-- Further on in a run, the variables have kept their registers and no register was emptied. -/
structure Later (scope : Scope) (s : State) (after : Scope) (t : State) : Prop where
  since : Scope.Since (fun _ => True) scope after
  filled : ∀ {q}, s.registers.get? q ≠ none → t.registers.get? q ≠ none

/-- A piece of code in which no register is found empty that has to be filled. -/
abbrev guarded {α : Type} (checked : Prop) (p : Program) (code : List Instruction) (x : Emit α)
    (Q : α → Scope → State → Prop) (scope : Scope) (s : State) : Prop :=
  wp code (fun _ => True)
    (fun _ fault => ∀ q, fault = .emptyRegister q → ¬ checked ∧ ReadsVariable p q) x Q scope s

theorem spared_of_some {v : Value} (h : s.registers.get? r = some v) : Spared checked p s r := by
  intro hn
  rw [h] at hn
  cases hn

theorem Spared.later (h : Spared checked p s r) (hl : Later scope s after t) :
    Spared checked p t r :=
  fun hn => h (Classical.byContradiction fun hne => hl.filled hne hn)

theorem Spared.wrote {q : Register} {v : Value} (h : Spared checked p s r) :
    Spared checked p (s.wrote q v) r := by
  intro hn
  rw [wrote_get?] at hn
  by_cases hr : r = q
  · rw [if_pos hr] at hn
    cases hn
  · rw [if_neg hr] at hn
    exact h hn

theorem Known.later (h : Known checked known scope s) (hl : Later scope s after t) :
    Known checked known after t := by
  intro hc x hx
  obtain ⟨b, hb, hfilled⟩ := h hc x hx
  obtain ⟨c, hfind, hreg⟩ := hl.since.keeps hb
  exact ⟨c, hfind, hreg ▸ hl.filled hfilled⟩

theorem Known.wrote {v : Value} (h : Known checked known scope s) :
    Known checked known scope (s.wrote r v) := by
  intro hc x hx
  obtain ⟨b, hb, hfilled⟩ := h hc x hx
  refine ⟨b, hb, ?_⟩
  rw [wrote_get?]
  by_cases hr : b.register = r
  · rw [if_pos hr]
    exact Option.some_ne_none v
  · rw [if_neg hr]
    exact hfilled

/-- A variable that is given a value has one. -/
theorem Known.bind {x : String} {o : Operand} (h : Known checked known scope s)
    (ho : s.registers.get? o.register ≠ none) : Known checked (x :: known) (scope.bind x o) s := by
  intro hc y hy
  by_cases hyx : y = x
  · exact ⟨o, by rw [Scope.find?_bind, if_pos hyx], ho⟩
  · have hold : y ∈ known := (List.mem_cons.1 hy).resolve_left hyx
    obtain ⟨b, hb, hfilled⟩ := h hc y hold
    exact ⟨b, by rw [Scope.find?_bind, if_neg hyx, hb], hfilled⟩

theorem Known.of_cons {x : String} (h : Known checked (x :: known) scope s) :
    Known checked known scope s :=
  fun hc y hy => h hc y (List.mem_cons_of_mem _ hy)

/-- A check in two parts. -/
theorem checked_bind {first : Option (List String)} {rest : List String → Option (List String)}
    (h : checked → first.bind rest = some found) :
    ∃ mid, (checked → first = some mid) ∧ (checked → rest mid = some found) := by
  by_cases hc : checked
  · obtain ⟨mid, hfirst, hrest⟩ := Option.bind_eq_some_iff.1 (h hc)
    exact ⟨mid, fun _ => hfirst, fun _ => hrest⟩
  · exact ⟨[], fun hc' => absurd hc' hc, fun hc' => absurd hc' hc⟩

theorem checked_map {first : Option (List String)}
    (h : checked → first.map (fun _ => known) = some found) :
    ∃ mid, (checked → first = some mid) ∧ (checked → known = found) := by
  by_cases hc : checked
  · obtain ⟨mid, hfirst, hrest⟩ := Option.map_eq_some_iff.1 (h hc)
    exact ⟨mid, fun _ => hfirst, fun _ => hrest⟩
  · exact ⟨[], fun hc' => absurd hc' hc, fun hc' => absurd hc' hc⟩

/-! ## Rules -/

theorem wp_later {α : Type} {I : State → Prop} {E : Instruction → Fault → Prop}
    {x : Emit α} {Q : α → Scope → State → Prop}
    (hx : ∀ a, x s.next scope = .ok a → Scope.Since (fun _ => True) scope a.scope)
    (h : wp code I E x Q scope s) :
    wp code I E x (fun v after t => Q v after t ∧ Later scope s after t) scope s := by
  have hkeeping :=
    wp_keeping (P := fun _ t => ∀ q, s.registers.get? q ≠ none → t.registers.get? q ≠ none) h ?_ ?_
  · refine wp_mono hkeeping ?_
    rintro v after t ⟨piece, hpiece, _⟩ ⟨hQ, hfilled⟩
    exact ⟨hQ, hx _ hpiece, fun hq => hfilled _ hq⟩
  · intro a u v i _ _ _ hu hstep q hq
    exact hstep.filled (hu q hq)
  · exact fun _ _ q hq => hq

theorem expr_later {I : State → Prop} {E : Instruction → Fault → Prop} {e : Expr}
    {Q : Operand → Scope → State → Prop} (hwf : scope.WF) (h : wp code I E (expr e) Q scope s) :
    wp code I E (expr e) (fun o after t => Q o after t ∧ Later scope s after t) scope s :=
  wp_later (fun _ ha => (expr_grown e.assignsOnly_true hwf ha).1.since) h

theorem exprs_later {I : State → Prop} {E : Instruction → Fault → Prop} {es : List Expr}
    {Q : List Operand → Scope → State → Prop} (hwf : scope.WF)
    (h : wp code I E (exprs es) Q scope s) :
    wp code I E (exprs es) (fun os after t => Q os after t ∧ Later scope s after t) scope s := by
  refine wp_later (fun a ha => ?_) h
  exact exprs_since (fun e _ => e.assignsOnly_true) hwf ⟨a.code, ha, rfl⟩

theorem store_later {I : State → Prop} {E : Instruction → Fault → Prop} {target : Expr}
    {value : Operand} {Q : Unit → Scope → State → Prop} (hwf : scope.WF)
    (h : wp code I E (store target value) Q scope s) :
    wp code I E (store target value)
      (fun u after t => Q u after t ∧ Later scope s after t) scope s :=
  wp_later (fun _ ha => (store_grown hwf ha).since) h

/-- An instruction whose operands are filled or may be empty. -/
theorem wp_guarded {i : Instruction} {Q : Unit → Scope → State → Prop} (hdest : i.dest? = some r)
    (hreads : ∀ q ∈ i.reads, Spared checked p s q) (hQ : ∀ v, Q () scope (s.wrote r v)) :
    guarded checked p code (Emit.instruction i) Q scope s := by
  refine wp_write (fun _ => trivial) ?_ fun effect he => ?_
  · rintro fault hf q rfl
    obtain ⟨hq, hn⟩ := Instruction.empty_of_effect hf
    exact hreads q hq hn
  · obtain ⟨v, rfl⟩ := Instruction.writes_of_effect hdest he
    exact ⟨r, v, rfl, hQ v⟩

/-- What is known of an operand and of variables behind an expression that yields a value. -/
abbrev Filled (checked : Prop) (p : Program) (known : List String) (o : Operand) (scope : Scope)
    (s : State) : Prop :=
  Spared checked p s o.register ∧ Known checked known scope s

theorem into_filled {i : Register → Instruction} {kind : Option Kind}
    (hdest : ∀ r, (i r).dest? = some r) (hk : Known checked known scope s)
    (hreads : ∀ q ∈ (i scope.registers).reads, Spared checked p s q) :
    guarded checked p code (into i kind) (Filled checked p known) scope s := by
  refine wp_bind (wp_fresh (wp_bind (wp_guarded (hdest _) hreads fun v => wp_pure ⟨?_, hk.wrote⟩)))
  exact spared_of_some (wrote_get?_self _ _ _)

theorem arith_filled {op : Arith} {l r : Operand} (hk : Known checked known scope s)
    (hl : Spared checked p s l.register) (hr : Spared checked p s r.register) :
    guarded checked p code (arith op l r) (Filled checked p known) scope s := by
  have hreads : ∀ q ∈ [l.register, r.register], Spared checked p s q := by simp [hl, hr]
  unfold arith
  split
  · exact into_filled (fun _ => rfl) hk hreads
  · exact into_filled (fun _ => rfl) hk hreads
  · exact into_filled (fun _ => rfl) hk hreads

theorem get_filled {c k : Operand} (hk : Known checked known scope s)
    (hc : Spared checked p s c.register) (hkey : Spared checked p s k.register) :
    guarded checked p code (get c k) (Filled checked p known) scope s := by
  have hreads : ∀ q ∈ [c.register, k.register], Spared checked p s q := by simp [hc, hkey]
  unfold get
  split
  · exact wp_bind (wp_checkIndex (into_filled (fun _ => rfl) hk hreads))
  · exact into_filled (fun _ => rfl) hk hreads
  · exact into_filled (fun _ => rfl) hk hreads

/-- A container that takes a value is filled. -/
theorem put_filled {c k v : Operand} (hk : Known checked known scope s)
    (hc : Spared checked p s c.register) (hkey : Spared checked p s k.register)
    (hv : Spared checked p s v.register) :
    guarded checked p code (put c k v) (fun o after t => t.registers.get? o.register ≠ none ∧
      Known checked known after t) scope s := by
  have hreads : ∀ q ∈ [c.register, k.register, v.register], Spared checked p s q := by
    simp [hc, hkey, hv]
  have hset : ∀ {i : Instruction} {kind : Option Kind}, i.dest? = some c.register →
      i.reads = [c.register, k.register, v.register] →
      guarded checked p code (do Emit.instruction i; pure (⟨c.register, kind⟩ : Operand))
        (fun o after t => t.registers.get? o.register ≠ none ∧
          Known checked known after t) scope s := by
    intro i kind hdest hi
    refine wp_bind (wp_guarded hdest (hi ▸ hreads) fun w => wp_pure ⟨?_, hk.wrote⟩)
    rw [wrote_get?_self]
    exact Option.some_ne_none w
  unfold put
  split
  · exact wp_bind (wp_checkIndex (hset rfl rfl))
  · exact hset rfl rfl
  · exact hset rfl rfl

theorem putEntries_filled {map : Register} {pairs : List (Operand × Operand)}
    (hk : Known checked known scope s) (hmap : Spared checked p s map)
    (hpairs : ∀ q ∈ pairs, Spared checked p s q.1.register ∧ Spared checked p s q.2.register) :
    guarded checked p code (putEntries map pairs)
      (fun _ after t => Spared checked p t map ∧ Known checked known after t) scope s := by
  induction pairs generalizing s with
  | nil => exact wp_pure ⟨hmap, hk⟩
  | cons q rest ih =>
    obtain ⟨hkey, hvalue⟩ := hpairs q List.mem_cons_self
    have hreads : ∀ r ∈ [map, q.1.register, q.2.register], Spared checked p s r := by
      simp [hmap, hkey, hvalue]
    refine wp_bind (wp_guarded rfl hreads fun v => ih hk.wrote hmap.wrote fun q hq => ?_)
    · obtain ⟨hkey, hvalue⟩ := hpairs q (List.mem_cons_of_mem _ hq)
      exact ⟨hkey.wrote, hvalue.wrote⟩

/-- An assignment gives its variable a value. -/
theorem assign_filled {name : String} {value : Operand} (hk : Known checked known scope s)
    (hv : Spared checked p s value.register) :
    guarded checked p code (assign name value)
      (fun _ => Known checked (name :: known)) scope s := by
  have hcopy : ∀ {register : Register} {scope' : Scope}, Known checked known scope' s →
      guarded checked p code (do
        Emit.instruction (.copy value.register register)
        Emit.bindName name ⟨register, value.kind⟩) (fun _ => Known checked (name :: known))
          scope' s := by
    intro register scope' hk'
    refine wp_bind (wp_guarded rfl ?_ fun v => wp_bindName (hk'.wrote.bind ?_))
    · intro q hq
      exact List.mem_singleton.1 hq ▸ hv
    · rw [wrote_get?_self]
      exact Option.some_ne_none v
  refine wp_bind (wp_find? ?_)
  cases hb : scope.find? name with
  | none => exact wp_bind (wp_fresh (hcopy hk))
  | some b => exact wp_bind (wp_target (hcopy hk))

/-! ## Expressions -/

/-- What is known behind an expression. A call of `print` yields nothing that may be read. -/
abbrev FilledBy (checked : Prop) (p : Program) (e : Expr) (known : List String) (o : Operand)
    (scope : Scope) (s : State) : Prop :=
  ((∀ args, e ≠ .call "print" args) → Spared checked p s o.register) ∧ Known checked known scope s

/-- The code of an expression, and the code that stores into it, reads what it may at every site. -/
structure FilledAt (checked : Prop) (p : Program) (e : Expr) : Prop where
  expr :
      ∀ {code scope s known found}, Site p (.value e) s.next scope → Known checked known scope s →
        (checked → e.settle known = some found) →
        guarded checked p code (Lowering.expr e) (FilledBy checked p e found) scope s
  store :
      ∀ {code scope s value known found}, Site p (.store e value) s.next scope →
        Known checked known scope s →
        (checked → e.settleStore known = some found) → Spared checked p s value.register →
        guarded checked p code (Lowering.store e value) (fun _ => Known checked found) scope s

/-- Where calls of `print` are statements, no operand is one. -/
theorem operand_ne_print {task : Task} {n : Nat} {x : Expr} (hp : ∀ st ∈ p, st.expr.PrintsAtRoot)
    (hsite : Site p task n scope) (hx : x ∈ task.operands) : ∀ args, x ≠ .call "print" args :=
  hsite.parts hp x (nodes_of_mem_taskOperands hx x List.mem_cons_self)

/-- Operands one after the other. -/
theorem exprs_filled {task : Task} {n : Nat} {base : Scope} {earlier es : List Expr}
    {os : List Operand} (hp : ∀ st ∈ p, st.expr.PrintsAtRoot) (hsite : Site p task n base)
    (hops : task.operands = earlier ++ es) (hpre : (exprs earlier).Yields n base os s.next scope)
    (h : ∀ e ∈ es, FilledAt checked p e) (hk : Known checked known scope s)
    (hf : checked → Expr.settleAll es known = some found) :
    guarded checked p code (exprs es) (fun new after t =>
      (∀ o ∈ new, Spared checked p t o.register) ∧ Known checked found after t) scope s := by
  -- On the operands to come. What is known grows along the list, and what was read stays readable.
  induction es generalizing earlier os scope s known with
  | nil =>
    rw [exprs]
    refine wp_pure ⟨fun o ho => absurd ho List.not_mem_nil, fun hc => ?_⟩
    exact Option.some.inj (hf hc) ▸ hk hc
  | cons e es ih =>
    have hchild : Site p (.value e) s.next scope := .operand hsite hops hpre
    have hmem : e ∈ task.operands := hops ▸ List.mem_append_right _ List.mem_cons_self
    obtain ⟨mid, hfirst, hrest⟩ := checked_bind hf
    rw [exprs]
    refine wp_bind (wp_mono ((h e List.mem_cons_self).expr hchild hk hfirst) ?_)
    rintro o after t₁ hyields ⟨ho, hk₁⟩
    have hops' : task.operands = (earlier ++ [e]) ++ es := by simpa using hops
    have hafter := (expr_since e.assignsOnly_true hchild.wf hyields).1.wf
    have hothers :=
      ih hops' (exprs_snoc hpre hyields) (fun e he => h e (List.mem_cons_of_mem _ he)) hk₁ hrest
    refine wp_bind (wp_mono (exprs_later hafter hothers) ?_)
    rintro os after t₂ _ ⟨⟨hos, hk₂⟩, hlater⟩
    refine wp_pure ⟨fun q hq => ?_, hk₂⟩
    rcases List.mem_cons.1 hq with rfl | hq
    · exact (ho (operand_ne_print hp hsite hmem)).later hlater
    · exact hos q hq

/-- The right operand of `and` and `or` may be skipped: what it assigns does not count, and what it
reads has to be filled all the same. -/
theorem connect_filled {jump : Register → Nat → Instruction} {taken : Bool} {l : Operand}
    {right : Expr} (hjump : ∀ r, Branches (jump r) r taken)
    (hreads : ∀ r target, (jump r target).reads = [r]) (hr : FilledAt checked p right)
    (hsite : Site p (.value right) (s.next + 2) { scope with registers := scope.registers + 1 })
    (hprint : ∀ args, right ≠ .call "print" args) (hl : Spared checked p s l.register)
    (hk : Known checked known scope s) (hf : checked → right.settle known = some found) :
    guarded checked p code (connect jump l (expr right)) (Filled checked p known) scope s := by
  refine wp_bind (wp_bind (wp_fresh (wp_bind (wp_guarded rfl ?_ fun v => wp_pure ?_))))
  · intro q hq
    exact List.mem_singleton.1 hq ▸ hl
  have hresult : (s.wrote scope.registers v).registers.get? scope.registers = some v :=
    wrote_get?_self _ _ _
  have hk' : Known checked known { scope with registers := scope.registers + 1 }
      (s.wrote scope.registers v) :=
    hk.wrote
  refine wp_bind (wp_branch (hjump _) (fun _ _ => trivial) ?_ ?_ ?_)
  · rintro target fault he q rfl
    obtain ⟨hq, hn⟩ := Instruction.empty_of_effect he
    rw [hreads, List.mem_singleton] at hq
    rw [hq, hresult] at hn
    cases hn
  · intro _ _ _
    -- The right operand is entered with all that the left one has settled.
    have hentered : Known checked known { scope with registers := scope.registers + 1 }
        (s.wrote scope.registers v).advance := hk'
    refine wp_bind (wp_mono (expr_later hsite.wf (hr.expr hsite hentered hf)) ?_)
    rintro r after t _ ⟨⟨hread, _⟩, hlater⟩
    refine wp_bind
      (wp_guarded rfl ?_ fun w => wp_pure (wp_pure ⟨?_, (hentered.later hlater).wrote⟩))
    · intro q hq
      exact List.mem_singleton.1 hq ▸ hread hprint
    · exact spared_of_some (wrote_get?_self _ _ _)
  · intro _ target _ _ r stop after hyields
    -- Skipped: the scope is that of the right operand, and the values are those of before.
    obtain ⟨stop', hright⟩ := yields_of_skipped hyields
    have hsince := (expr_since right.assignsOnly_true hsite.wf hright).1
    have hlater : Later { scope with registers := scope.registers + 1 } (s.wrote scope.registers v)
        after { s.wrote scope.registers v with next := target } := ⟨hsince, id⟩
    exact wp_pure ⟨spared_of_some hresult, hk'.later hlater⟩

/-- A store into an element reads the container and the key, and puts the value in. -/
theorem store_element_filled {base key : Expr} {value : Operand}
    (hp : ∀ st ∈ p, st.expr.PrintsAtRoot) (hb : FilledAt checked p base)
    (hkey : FilledAt checked p key) (hsite : Site p (.store (.element base key) value) s.next scope)
    (hk : Known checked known scope s)
    (hf : checked → (Expr.element base key).settleStore known = some found)
    (hv : Spared checked p s value.register) :
    guarded checked p code (store (.element base key) value)
      (fun _ => Known checked found) scope s := by
  refine wp_of_ok fun a hok => ?_
  have htarget := target_of_store hok
  -- The check has gone the same way: container, key, and the store of the container.
  obtain ⟨inner, hinner, hstore⟩ := checked_bind hf
  obtain ⟨outer, hbase, hkeys⟩ := checked_bind hinner
  rw [store]
  refine wp_bind (wp_mono (expr_later hsite.wf (hb.expr (hsite.first rfl) hk hbase)) ?_)
  rintro c mid t₁ hyc ⟨⟨hc, hk₁⟩, hlater₁⟩
  have hsecond := hsite.second rfl hyc
  refine wp_bind (wp_mono (expr_later hsecond.wf (hkey.expr hsecond hk₁ hkeys)) ?_)
  rintro k after t₂ hyk ⟨⟨hk', hk₂⟩, hlater₂⟩
  have hcs := (hc (operand_ne_print hp hsite List.mem_cons_self)).later hlater₂
  have hks := hk' (operand_ne_print hp hsite (List.mem_cons_of_mem _ List.mem_cons_self))
  refine wp_bind (wp_mono (put_filled hk₂ hcs hks ((hv.later hlater₁).later hlater₂)) ?_)
  rintro o last t₃ hyo ⟨ho, hk₃⟩
  rcases htarget with ⟨name, rfl⟩ | ⟨base, baseKey, rfl⟩
  · refine wp_bindName fun hc => ?_
    obtain rfl : inner = found := Option.some.inj (hstore hc)
    exact (hk₃.bind ho).of_cons hc
  · have hback : Site p (.store (.element base baseKey) o) t₃.next last :=
      .back hsite (hyc.bind (hyk.bind hyo))
    exact hb.store hback hk₃ hstore fun hn => absurd hn ho

/-! ### The cases of an expression -/

/-- What is certain stays certain under another name for it. -/
theorem Known.congr (h : Known checked known scope s) (hsame : checked → known = found) :
    Known checked found scope s :=
  fun hc => hsame hc ▸ h hc

/-- A variable is read only if the check has found it certain, and stands for itself otherwise. -/
theorem ident_filled {name : String}
    (hread : ∀ b, scope.find? name = some b → ReadsVariable p b.register)
    (hk : Known checked known scope s)
    (hf : checked → (Expr.ident name).settleRest known = some found) :
    guarded checked p code (Emit.find? name >>= readName name)
      (Filled checked p found) scope s := by
  refine wp_bind (wp_find? ?_)
  cases hb : scope.find? name with
  | none => exact wp_fail
  | some b =>
    have hcheck : checked → name ∈ known ∧ known = found := by
      intro hc
      have hset := hf hc
      rw [Expr.settleRest] at hset
      split at hset
      · rename_i hmem
        exact ⟨hmem, Option.some.inj hset⟩
      · cases hset
    refine wp_pure ⟨fun hn => ⟨fun hc => ?_, hread b hb⟩, hk.congr fun hc => (hcheck hc).2⟩
    obtain ⟨c, hfind, hfilled⟩ := hk hc name (hcheck hc).1
    obtain rfl : b = c := Option.some.inj (hb.symm.trans hfind)
    exact hfilled hn

theorem map_filled {entries : List (Expr × Expr)} {os : List Operand}
    (hos : ∀ o ∈ os, Spared checked p s o.register) (hk : Known checked known scope s) :
    guarded checked p code (finish (.map entries) os) (Filled checked p known) scope s := by
  have hnone : ∀ q ∈ ([] : List Register), Spared checked p s q :=
    fun q hq => absurd hq List.not_mem_nil
  refine wp_bind (wp_bind (wp_fresh (wp_bind (wp_guarded rfl hnone fun v => wp_pure ?_))))
  refine wp_bind (wp_mono
    (putEntries_filled hk.wrote (spared_of_some (wrote_get?_self _ _ _)) fun q hq => ?_) ?_)
  · obtain ⟨hkey, hvalue⟩ := mem_pairUp hq
    exact ⟨(hos _ hkey).wrote, (hos _ hvalue).wrote⟩
  · rintro _ after t _ ⟨hmap, hk'⟩
    exact wp_pure ⟨hmap, hk'⟩

theorem call_filled {name : String} {args : List Expr} {os : List Operand}
    (hos : ∀ q ∈ os.map Operand.register, Spared checked p s q) (hk : Known checked known scope s) :
    guarded checked p code (finish (.call name args) os)
      (FilledBy checked p (.call name args) known) scope s := by
  simp only [finish]
  split
  · rename_i hname
    subst hname
    refine wp_bind (wp_print (fun _ => trivial) ?_ ?_ fun values sink _ _ => ?_)
    · rintro fault he q rfl
      obtain ⟨hq, hn⟩ := Instruction.empty_of_effect he
      exact hos q hq hn
    · rintro q ⟨⟩
    · exact wp_bind (wp_fresh (wp_pure ⟨fun hne => absurd rfl (hne args), hk⟩))
  · split
    · refine wp_mono (wp_bind (wp_checkContainer (into_filled (fun _ => rfl) hk hos))) ?_
      exact fun _ _ _ _ h => ⟨fun _ => h.1, h.2⟩
    · exact wp_fail

theorem negation_filled {op : UnaryOp} {o : Operand} (ho : Spared checked p s o.register)
    (hk : Known checked known scope s) :
    guarded checked p code (negation op o) (Filled checked p known) scope s := by
  have hreads : ∀ q ∈ [o.register], Spared checked p s q := fun q hq => List.mem_singleton.1 hq ▸ ho
  cases op with
  | not => exact into_filled (fun _ => rfl) hk hreads
  | negate => exact into_filled (fun _ => rfl) hk hreads

/-- What was stored can be read where the store is done. -/
theorem stored_filled {target : Expr} {v : Operand} (hwf : scope.WF)
    (hv : Spared checked p s v.register)
    (hstore : guarded checked p code (store target v) (fun _ => Known checked found) scope s) :
    guarded checked p code (store target v >>= fun _ => pure v)
      (Filled checked p found) scope s := by
  refine wp_bind (wp_mono (store_later hwf hstore) ?_)
  rintro _ after t _ ⟨hk, hlater⟩
  exact wp_pure ⟨hv.later hlater, hk⟩

/-- `and`, `or`, and assignments, which have more code behind that of their operands. -/
theorem binary_filled {left right : Expr} {op : BinaryOp} {n : Nat} {base : Scope}
    {os : List Operand} (hp : ∀ st ∈ p, st.expr.PrintsAtRoot) (hleft : FilledAt checked p left)
    (hright : FilledAt checked p right) (hsite : Site p (.value (.binary left op right)) n base)
    (hyields : (exprs (Expr.binary left op right).operands).Yields n base os s.next scope)
    (hwf : scope.WF) (hos : ∀ o ∈ os, Spared checked p s o.register)
    (hk : Known checked known scope s)
    (hf : checked → (Expr.binary left op right).settleRest known = some found) :
    guarded checked p code (finish (.binary left op right) os)
      (Filled checked p found) scope s := by
  have hprint : ∀ args, right ≠ .call "print" args :=
    hsite.parts hp right (List.mem_append_right _ List.mem_cons_self)
  cases op with
  | arith op =>
    obtain ⟨l, r, _, _, rfl, _, _⟩ := yields_of_exprs_two hyields
    have hk' := hk.congr fun hc => Option.some.inj (hf hc)
    exact arith_filled hk' (hos l List.mem_cons_self) (hos r (by simp))
  | relation op =>
    obtain ⟨l, r, _, _, rfl, _, _⟩ := yields_of_exprs_two hyields
    have hk' := hk.congr fun hc => Option.some.inj (hf hc)
    exact into_filled (fun _ => rfl) hk' (by simpa [Instruction.reads] using hos)
  | and =>
    obtain ⟨l, rfl, hl⟩ := exists_of_exprs_one hyields
    obtain ⟨mid, hmid, hsame⟩ := checked_map hf
    refine wp_mono (connect_filled branches_jumpUnless (fun _ _ => rfl) hright
      (.right hsite (Or.inl rfl) hl) hprint (hos l List.mem_cons_self) hk hmid) ?_
    exact fun _ _ _ _ h => ⟨h.1, h.2.congr hsame⟩
  | or =>
    obtain ⟨l, rfl, hl⟩ := exists_of_exprs_one hyields
    obtain ⟨mid, hmid, hsame⟩ := checked_map hf
    refine wp_mono (connect_filled branches_jumpIf (fun _ _ => rfl) hright
      (.right hsite (Or.inr rfl) hl) hprint (hos l List.mem_cons_self) hk hmid) ?_
    exact fun _ _ _ _ h => ⟨h.1, h.2.congr hsame⟩
  | assign =>
    obtain ⟨v, rfl, hvalue⟩ := exists_of_exprs_one hyields
    have hv := hos v List.mem_cons_self
    exact stored_filled hwf hv (hleft.store (.assign hsite hvalue) hk hf hv)
  | update op =>
    obtain ⟨l, r, m, mid, rfl, hl, hr⟩ := yields_of_exprs_two hyields
    refine wp_bind (wp_mono (arith_filled hk (hos l List.mem_cons_self) (hos r (by simp))) ?_)
    rintro v after t₁ hyv ⟨hv, hk₁⟩
    have hafter : after.WF := (arith_since (A := fun _ => True) hwf hyv).1.wf
    exact stored_filled hafter hv (hleft.store (.update hsite (hl.bind (hr.bind hyv))) hk₁ hf hv)

/-- What an expression does with its operands. -/
theorem finish_filled {e : Expr} {n : Nat} {base : Scope} {os : List Operand}
    (hp : ∀ st ∈ p, st.expr.PrintsAtRoot)
    (hident : ∀ name b, e = .ident name → scope.find? name = some b → ReadsVariable p b.register)
    (hparts : ∀ left op right, e = .binary left op right →
      FilledAt checked p left ∧ FilledAt checked p right) (hsite : Site p (.value e) n base)
    (hyields : (exprs e.operands).Yields n base os s.next scope)
    (hos : ∀ o ∈ os, Spared checked p s o.register) (hk : Known checked known scope s)
    (hf : checked → e.settleRest known = some found) :
    guarded checked p code (finish e os) (FilledBy checked p e found) scope s := by
  have hwf : scope.WF := (exprs_since (fun e _ => e.assignsOnly_true) hsite.wf hyields).wf
  have hreads : ∀ q ∈ os.map Operand.register, Spared checked p s q := by
    intro q hq
    obtain ⟨o, ho, rfl⟩ := List.mem_map.1 hq
    exact hos o ho
  -- Only calls of `print` yield nothing that may be read.
  have hvalue : ∀ {x : Emit Operand}, guarded checked p code x (Filled checked p found) scope s →
      guarded checked p code x (FilledBy checked p e found) scope s :=
    fun hx => wp_mono hx fun _ _ _ _ h => ⟨fun _ => h.1, h.2⟩
  cases e with
  | literal v =>
    have hk' := hk.congr fun hc => Option.some.inj (hf hc)
    exact hvalue (into_filled (fun _ => rfl) hk' fun q hq => absurd hq List.not_mem_nil)
  | ident name => exact hvalue (ident_filled (fun b => hident name b rfl) hk hf)
  | group inner =>
    obtain ⟨o, rfl, _⟩ := exists_of_exprs_one hyields
    have hk' := hk.congr fun hc => Option.some.inj (hf hc)
    exact hvalue (wp_pure ⟨hos o List.mem_cons_self, hk'⟩)
  | array items =>
    have hk' := hk.congr fun hc => Option.some.inj (hf hc)
    exact hvalue (into_filled (fun _ => rfl) hk' hreads)
  | map entries =>
    have hk' := hk.congr fun hc => Option.some.inj (hf hc)
    exact hvalue (map_filled hos hk')
  | element container key =>
    obtain ⟨c, k, _, _, rfl, _, _⟩ := yields_of_exprs_two hyields
    have hk' := hk.congr fun hc => Option.some.inj (hf hc)
    exact hvalue (get_filled hk' (hos c List.mem_cons_self) (hos k (by simp)))
  | call name args => exact call_filled hreads (hk.congr fun hc => Option.some.inj (hf hc))
  | unary op operand =>
    obtain ⟨o, rfl, _⟩ := exists_of_exprs_one hyields
    have hk' := hk.congr fun hc => Option.some.inj (hf hc)
    exact hvalue (negation_filled (hos o List.mem_cons_self) hk')
  | binary left op right =>
    obtain ⟨hleft, hright⟩ := hparts left op right rfl
    exact hvalue (binary_filled hp hleft hright hsite hyields hwf hos hk hf)

/-- No expression reads what it may not. -/
theorem expr_filled (hp : ∀ st ∈ p, st.expr.PrintsAtRoot) (e : Expr) : FilledAt checked p e := by
  induction e using Expr.inductOperands with
  | step e hops hparts =>
    refine ⟨fun {code scope s known found} hsite hk hf => ?_,
      fun {code scope s value known found} hsite hk hf hv => ?_⟩
    · have hnone : (exprs []).Yields s.next scope [] s.next scope := ⟨[], rfl, rfl⟩
      rw [Expr.settle_factors] at hf
      obtain ⟨mid, hfirst, hrest⟩ := checked_bind hf
      refine wp_congr (fun a ha => expr_factors ha)
        (wp_bind (wp_mono (exprs_filled hp hsite rfl hnone hops hk hfirst) ?_))
      rintro os after t hyields ⟨hos, hk'⟩
      refine finish_filled hp ?_ hparts hsite hyields hos hk' hrest
      rintro name b rfl hb
      -- A variable has no operands, so the scope is still the one it stands in.
      obtain ⟨piece, hpiece, _⟩ := hyields
      cases hpiece
      exact ⟨name, _, _, b, hsite, hb, rfl⟩
    · cases e with
      | ident name =>
        refine wp_mono (assign_filled hk hv) fun _ after t _ hk' hc => ?_
        exact Option.some.inj (hf hc) ▸ hk' hc
      | element base key =>
        exact store_element_filled hp (hops base (by simp [Expr.operands]))
          (hops key (by simp [Expr.operands])) hsite hk hf hv
      | _ => exact wp_fail

/-- An instruction of the program that finds a register empty finds that of a variable which the
program reads, and the program does not pass the check. -/
theorem reads_of_empty {routine : Routine} {sink : Sink} {u : State}
    {i : Instruction} (hp : ∀ st ∈ p, st.expr.PrintsAtRoot)
    (hlower : p.lower = .ok routine) (hdef : checked → p.DefinitelyAssigned)
    (hu : Reaches routine.code (routine.start sink) u) (hi : routine.code[u.next]? = some i)
    (hexec : u.advance.execute i = (t, some (.emptyRegister r))) :
    ¬ checked ∧ ReadsVariable p r := by
  -- What the check finds is of no interest if the program is not checked.
  obtain ⟨found, hf⟩ : ∃ found, checked → p.settle [] = some found := by
    by_cases hc : checked
    · obtain ⟨found, hfound⟩ := Option.isSome_iff_exists.1 (hdef hc)
      exact ⟨found, fun _ => hfound⟩
    · exact ⟨[], fun hc' => absurd hc' hc⟩
  obtain ⟨all, hall, hr⟩ := statements_of_lower hlower
  have hleads := statements_sites (s := routine.start sink) (I := fun _ => True)
    (E := fun _ fault => ∀ q, fault = .emptyRegister q → ¬ checked ∧ ReadsVariable p q)
    (K := fun rest scope s => ∃ known, Known checked known scope s ∧
      (checked → Program.settle rest known = some found))
    ?_ (List.append_nil p).symm hall (placed_statements hlower hall) rfl ?_
  · rcases hleads.fault hu hi hexec with hexcused | ⟨w, ⟨hn, _⟩, _, hwu⟩
    · exact hexcused r rfl
    · -- Behind the last statement there is no instruction left to fail.
      have hnone : routine.code[w.next]? = none := by
        rw [hr]
        exact List.getElem?_eq_none (Nat.le_of_eq hn.symm)
      rw [← hwu.eq_of_none hnone, hnone] at hi
      cases hi
  · rintro st rest scope s hsite ⟨known, hk, hsettle⟩
    obtain ⟨mid, hfirst, hrest⟩ := checked_bind hsettle
    refine wp_mono ((expr_filled hp st.expr).expr hsite hk hfirst) ?_
    rintro o after t _ ⟨_, hk'⟩
    exact ⟨mid, hk', hrest⟩
  · exact ⟨[], fun _ x hx => absurd hx List.not_mem_nil, hf⟩

end Lowering

/-! ## Programs -/

namespace Program

open Lowering

instance (p : Program) : Decidable p.DefinitelyAssigned := inferInstanceAs (Decidable (_ = true))

/-- **Empty registers.** Where calls of `print` are statements, no run ends at an empty register
exactly if no instruction on the way is stopped by the empty register of a variable that the program
reads. That is so if the variable is certain to have a value wherever it is read. -/
theorem empty_register_iff (p : Program) (routine : Routine) (sink : Sink)
    (hp : ∀ st ∈ p, st.expr.PrintsAtRoot) (hlower : p.lower = .ok routine) :
    ((∀ limit index opcode r,
      (routine.run limit sink).result ≠ .error (.instruction index opcode (.emptyRegister r))) ↔
      ∀ t i x n scope b, Reaches routine.code (routine.start sink) t →
        routine.code[t.next]? = some i →
        Site p (.value (.ident x)) n scope → scope.find? x = some b →
        i.effect t.registers ≠ .error (.emptyRegister b.register)) ∧
      (p.DefinitelyAssigned → ∀ limit index opcode r, (routine.run limit sink).result ≠
        .error (.instruction index opcode (.emptyRegister r))) := by
  refine ⟨⟨fun h t i x n scope b ht hi _ _ he => ?_, fun h limit index opcode r hrun => ?_⟩,
    fun hdef limit index opcode r hrun => ?_⟩
  · have hexec : t.advance.execute i = (t.advance, some (.emptyRegister b.register)) := by
      unfold State.execute
      rw [advance_registers, he]
    obtain ⟨limit, hrun⟩ := Routine.run_of_fault ht hi hexec
    exact h limit _ _ _ hrun
  · obtain ⟨u, t, i, hu, _, hi, _, hexec⟩ := Routine.run_failed hrun
    have hreads : ¬ False ∧ ReadsVariable p r := reads_of_empty hp hlower False.elim hu hi hexec
    obtain ⟨_, x, n, scope, b, hsite, hb, rfl⟩ := hreads
    rcases fault_of_execute hexec with he | ⟨hclosed, _⟩
    · exact h u i x n scope b hu hi hsite hb he
    · cases hclosed
  · obtain ⟨u, t, i, hu, _, hi, _, hexec⟩ := Routine.run_failed hrun
    have hreads : ¬ True ∧ ReadsVariable p r := reads_of_empty hp hlower (fun _ => hdef) hu hi hexec
    exact hreads.1 trivial

/-- `x = 1`, `true or (y = x)`, `print(x)` -/
def certainRead : Program :=
  [⟨.binary (.ident "x") .assign (.literal (.number ⟨1, 0⟩)), default⟩,
    ⟨.binary (.literal (.bool true)) .or (.group (.binary (.ident "y") .assign (.ident "x"))),
      default⟩, ⟨.call "print" [.ident "x"], default⟩]

/-- The variable that `certainRead` may leave without a value is never read. -/
theorem empty_register_iff_certainRead :
    ∃ routine, certainRead.lower = .ok routine ∧
      ∀ limit index opcode r, (routine.run limit (.new none)).result ≠
        .error (.instruction index opcode (.emptyRegister r)) := by
  have hlower : certainRead.lower = .ok ⟨[.load (.number ⟨1, 0⟩) 0, .copy 0 1, .load (.bool true) 2,
      .copy 2 3, .jumpIf 3 7, .copy 1 4, .copy 1 3, .print [1]], 6⟩ := by
    cbv
  have hp : ∀ st ∈ certainRead, st.expr.PrintsAtRoot := by
    simp [certainRead, Expr.PrintsAtRoot, Expr.parts, Expr.nodesOf]
  exact ⟨_, hlower, (empty_register_iff _ _ _ hp hlower).2 (by decide)⟩

/-- `false and (x = 1)`, `print(x)` -/
def skippedAssignment : Program :=
  [⟨.binary (.literal (.bool false)) .and
    (.group (.binary (.ident "x") .assign (.literal (.number ⟨1, 0⟩)))), default⟩,
    ⟨.call "print" [.ident "x"], default⟩]

/-- The run of `skippedAssignment` reads the register of a variable that was given no value. -/
theorem empty_register_skippedAssignment :
    (∀ st ∈ skippedAssignment, st.expr.PrintsAtRoot) ∧
      ∃ routine, skippedAssignment.lower = .ok routine ∧
        (routine.run none (.new none)).result =
          .error (.instruction 6 "Print" (.emptyRegister 3)) := by
  have hlower : skippedAssignment.lower = .ok ⟨[.load (.bool false) 0, .copy 0 1, .jumpUnless 1 6,
      .load (.number ⟨1, 0⟩) 2, .copy 2 3, .copy 2 1, .print [3]], 5⟩ := by
    cbv
  have hp : ∀ st ∈ skippedAssignment, st.expr.PrintsAtRoot := by
    simp [skippedAssignment, Expr.PrintsAtRoot, Expr.parts, Expr.nodesOf]
  exact ⟨hp, _, hlower, rfl⟩

end Program

end LineScript
