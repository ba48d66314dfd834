import LineScript.Proofs.Code.Operation

/-!
# Code that only reads variables

The code of an expression without assignments computes what the evaluator says, wherever it stands
and whatever has run before: `expr_reads`. Nothing is asked of variables that the expression does
not mention or that have no value yet, and nothing of the way to the code; so it applies at every
site of a program, also where the evaluator has nothing to say about the rest. The value of an
expression depends on the values of its variables only: computed twice with the same values of its
variables, it is the same (`Sees`).
-/

set_option autoImplicit false

namespace LineScript

open State Emit

/-- All variables in the expression are in `A`. -/
def Expr.Mentions (A : String → Prop) (e : Expr) : Prop := e.All fun m => ∀ x, m = .ident x → A x

/-- The expression assigns nothing, and mentions variables in `A` only. -/
def Expr.OnlyReads (A : String → Prop) (e : Expr) : Prop := e.AssignmentFree ∧ e.Mentions A

/-- The world gives the values that variables in `A` have. Variables without a value do not
matter. -/
def Sees (A : String → Prop) (w : World) : Scope → State → Prop :=
  Variables fun x _ held => A x → ∀ v, held = some v → w.vars x = some v.bare

variable {A : String → Prop} {w w' : World} {code : List Instruction}
    {scope after : Scope} {s t : State}

/-- Every state is seen as it is. -/
theorem Sees.exists (hwf : scope.WF)
    (hvacant : ∀ {r}, scope.registers ≤ r → s.registers.get? r = none) : ∃ w, Sees A w scope s := by
  refine ⟨⟨fun x => (scope.find? x).bind fun b => (s.registers.get? b.register).map Value.bare, ""⟩,
    hwf, hvacant, ?_⟩
  intro x b hb _ v hv
  simp [hb, hv]

/-- Code that assigns other variables does not change what is seen. -/
theorem Sees.ran_of_apart {B : String → Prop} (h : Sees A w scope s)
    (hr : Lowering.Ran B scope s after t) (hAB : ∀ x, A x → ¬ B x) : Sees A w after t where
  wf := hr.since.wf
  vacant hq := (hr.beyond hq).trans (h.vacant (Nat.le_trans hr.since.le hq))
  holds {x b} hb hx v hv := by
    rw [hr.since.same (hAB x hx)] at hb
    have hother : ¬ scope.Owns B b.register := by
      rintro (hle | ⟨y, c, hy, hc, hreg⟩)
      · exact absurd (h.wf.lt hb) (Nat.not_lt.2 hle)
      · exact hAB x hx (h.wf.apart hc hb hreg ▸ hy)
    rw [hr.kept hother] at hv
    exact h.holds hb hx v hv

/-- Code that assigns nothing does not change what is seen. -/
theorem Sees.ran (h : Sees A w scope s) (hr : Lowering.Ran (fun _ => False) scope s after t) :
    Sees A w after t :=
  h.ran_of_apart hr fun _ _ => id

namespace Lowering

/-- The register of an expression holds what the evaluator says, if it holds anything. -/
abbrev Holds (w : World) (e : Expr) (o : Operand) (_ : Scope) (t : State) : Prop :=
  ∀ v, t.registers.get? o.register = some v → e.eval w = some (some v.bare, w)

/-- The value was just written. -/
theorem holds_wrote {e : Expr} {r : Register} {kind : Option Kind} {v : Value}
    (h : e.eval w = some (some v.bare, w)) : Holds w e ⟨r, kind⟩ after (s.wrote r v) := by
  intro u hu
  obtain rfl : v = u := Option.some.inj ((wrote_get?_self _ _ _).symm.trans hu)
  exact h

/-- The code of an expression puts what the evaluator says into its register, if it puts anything
there. -/
def ReadsAs (A : String → Prop) (w : World) (e : Expr) : Prop :=
  ∀ ⦃code scope s⦄, Sees A w scope s →
    ends code (expr e) (fun o after t => Holds w e o after t ∧
      Ran (fun _ => False) scope s after t ∧ Resides scope e.alias? o after) scope s

/-- What has been there before is left alone by all expressions without assignments, so only the
result is left to show. -/
theorem readsAs_of {e : Expr} (he : e.AssignmentFree)
    (h : ∀ {code scope s}, Sees A w scope s → ends code (expr e) (Holds w e) scope s) :
    ReadsAs A w e :=
  fun _ _ _ hs => expr_ran he.assignsOnly hs.wf (h hs)

/-- Several expressions; their registers hold what the evaluator says, if none of them is empty. -/
theorem exprs_reads {es : List Expr} (h : ∀ e ∈ es, ReadsAs A w e) (hs : Sees A w scope s) :
    ends code (exprs es)
      (fun os after t => os.length = es.length ∧ (∀ o ∈ os, o.register < after.registers) ∧
        Ran (fun _ => False) scope s after t ∧
        ∀ values : List Value, os.map (fun o => t.registers.get? o.register) = values.map some →
          Expr.evalAll es w = some (values.map Value.bare, w)) scope s := by
  -- On the list. Later operands leave the registers of earlier ones alone.
  induction es generalizing scope s with
  | nil =>
    rw [exprs]
    refine wp_pure
      ⟨rfl, fun o ho => absurd ho List.not_mem_nil, ⟨.refl hs.wf, fun _ => rfl, fun _ => rfl⟩, ?_⟩
    intro values hvalues
    obtain rfl : values = [] := List.map_eq_nil_iff.1 hvalues.symm
    simp [Expr.evalAll]
  | cons e rest ih =>
    rw [exprs]
    refine wp_bind (wp_mono (h e List.mem_cons_self hs) ?_)
    rintro o mid t₁ _ ⟨heval, hran, hres⟩
    refine wp_bind (wp_mono (ih (fun e he => h e (List.mem_cons_of_mem _ he)) (hs.ran hran)) ?_)
    rintro os after t₂ _ ⟨hlen, hlt, hran₂, hrest⟩
    refine wp_pure ⟨congrArg Nat.succ hlen, ?_, hran.trans hran₂, ?_⟩
    · intro q hq
      rcases List.mem_cons.1 hq with rfl | hq
      · exact Nat.lt_of_lt_of_le hres.lt hran₂.since.le
      · exact hlt q hq
    · intro values hvalues
      cases values with
      | nil => cases hvalues
      | cons v vs =>
        obtain ⟨ho, hos⟩ := List.cons.inj hvalues
        simp only [hran₂.below hres.lt] at ho
        exact Expr.evalAll_cons_eq_some_iff.2 ⟨_, _, w, heval v ho, hrest vs hos, rfl⟩

/-- Operands first: what is left is to say what the expression makes of their values. -/
theorem readsAs_of_finish {e : Expr} (he : e.AssignmentFree) (h : ∀ x ∈ e.operands, ReadsAs A w x)
    (hfinish : ∀ {code scope s os}, Sees A w scope s → os.length = e.operands.length →
      (∀ o ∈ os, o.register < scope.registers) →
      (∀ values : List Value, os.map (fun o => s.registers.get? o.register) = values.map some →
        Expr.evalAll e.operands w = some (values.map Value.bare, w)) →
      ends code (finish e os) (Holds w e) scope s) :
    ReadsAs A w e := by
  refine readsAs_of he fun hs => wp_congr (fun _ ha => expr_factors ha) ?_
  refine wp_bind (wp_mono (exprs_reads h hs) ?_)
  rintro os mid t _ ⟨hlen, hlt, hran, heval⟩
  exact hfinish (hs.ran hran) hlen hlt heval

/-! ## Expressions -/

theorem eval_of_evalAll_one {e : Expr} {v : Value} (h : Expr.evalAll [e] w = some ([v], w)) :
    e.eval w = some (some v, w) := by
  obtain ⟨u, vs, w₁, hu, hrest, hvalues⟩ := Expr.evalAll_cons_eq_some_iff.1 h
  simp only [Expr.evalAll, Eval.pure_eq_some_iff, Prod.mk.injEq] at hrest
  obtain ⟨rfl, rfl⟩ := hrest
  obtain ⟨rfl, _⟩ := List.cons.inj hvalues
  exact hu

theorem eval_of_evalAll_two {e f : Expr} {u v : Value}
    (h : Expr.evalAll [e, f] w = some ([u, v], w)) :
    ∃ w₁, e.eval w = some (some u, w₁) ∧ f.eval w₁ = some (some v, w) := by
  obtain ⟨a, vs, w₁, ha, hrest, hvalues⟩ := Expr.evalAll_cons_eq_some_iff.1 h
  obtain ⟨b, us, w₂, hb, hnil, rfl⟩ := Expr.evalAll_cons_eq_some_iff.1 hrest
  simp only [Expr.evalAll, Eval.pure_eq_some_iff, Prod.mk.injEq] at hnil
  obtain ⟨rfl, rfl⟩ := hnil
  obtain ⟨rfl, htail⟩ := List.cons.inj hvalues
  obtain ⟨rfl, _⟩ := List.cons.inj htail
  exact ⟨w₁, ha, hb⟩

theorem evalEntries_of_evalAll {ps : List (Expr × Expr)} {pairs : List (Value × Value)}
    (h : Expr.evalAll (ps.flatMap fun p => [p.1, p.2]) w =
      some (pairs.flatMap fun p => [p.1, p.2], w')) :
    Expr.evalEntries ps w = some (pairs.map fun p => (p.1.key, p.2), w') := by
  induction ps generalizing w pairs with
  | nil =>
    simp only [List.flatMap_nil, Expr.evalAll, Eval.pure_eq_some_iff, Prod.mk.injEq] at h
    cases pairs with
    | nil => simp [Expr.evalEntries, h.2]
    | cons p rest => cases h.1
  | cons q rest ih =>
    obtain ⟨key, value⟩ := q
    obtain ⟨k, vs, w₁, hk, hrest, hvalues⟩ := Expr.evalAll_cons_eq_some_iff.1 h
    obtain ⟨v, us, w₂, hv, hothers, rfl⟩ := Expr.evalAll_cons_eq_some_iff.1 hrest
    cases pairs with
    | nil => cases hvalues
    | cons p pairs =>
      obtain ⟨rfl, htail⟩ := List.cons.inj hvalues
      obtain ⟨rfl, rfl⟩ := List.cons.inj htail
      exact Expr.evalEntries_cons_eq_some_iff.2 ⟨_, _, _, w₁, w₂, hk, hv, ih hothers, rfl⟩

/-- Entries are inserted one after the other, whatever the element kinds of their values. -/
theorem ofList_entries_bare (pairs : List (String × Value)) :
    (Entries.ofList pairs).map (fun p => (p.1, p.2.bare)) =
      Entries.ofList (pairs.map fun p => (p.1, p.2.bare)) := by
  have hfold : ∀ entries : List (String × Value),
      (pairs.foldl (fun es p => Entries.insert p.1 p.2 es) entries).map (fun p => (p.1, p.2.bare)) =
        (pairs.map fun p => (p.1, p.2.bare)).foldl (fun es p => Entries.insert p.1 p.2 es)
          (entries.map fun p => (p.1, p.2.bare)) := by
    induction pairs with
    | nil => exact fun _ => rfl
    | cons p rest ih =>
      intro entries
      rw [List.foldl_cons, ih, Value.insert_entries_bare, List.map_cons, List.foldl_cons]
  exact hfold []

/-- `and` and `or`: the register of the result holds the left operand, or the right one where that
is computed. -/
theorem connect_reads {e left right : Expr} {jump : Register → Nat → Instruction} {taken : Bool}
    {l : Operand} (hr : ReadsAs A w right) (hjump : ∀ r, Branches (jump r) r taken)
    (hskip : ∀ {a}, left.eval w = some (some a, w) → a.isTrue = taken → e.eval w = some (some a, w))
    (henter : ∀ {a b}, left.eval w = some (some a, w) → a.isTrue ≠ taken →
      right.eval w = some (some b, w) → e.eval w = some (some b, w)) (hs : Sees A w scope s)
    (hl : ∀ a, s.registers.get? l.register = some a → left.eval w = some (some a.bare, w)) :
    ends code (connect jump l (expr right)) (Holds w e) scope s := by
  refine wp_bind (into_ends fun effect he => ?_)
  obtain ⟨a, ha, rfl⟩ := Instruction.effect_copy he
  refine ⟨a, rfl, ?_⟩
  have hs₁ : Sees A w { scope with registers := scope.registers + 1 } (s.wrote scope.registers a) :=
    hs.wrote_fresh
  refine wp_bind (wp_branch (hjump _) (fun _ _ => trivial) (fun _ _ _ => trivial) ?_ ?_)
  · intro u hu htrue
    obtain rfl : a = u := Option.some.inj ((wrote_get?_self _ _ _).symm.trans hu)
    refine wp_bind (wp_mono (hr hs₁.moved) ?_)
    rintro r after t _ ⟨hright, _, _⟩
    refine wp_bind (wp_write (fun _ => trivial) (fun _ _ => trivial) fun effect he => ?_)
    obtain ⟨b, hb, rfl⟩ := Instruction.effect_copy he
    refine ⟨_, b, rfl, wp_pure (wp_pure (holds_wrote ?_))⟩
    exact henter (hl a ha) (by rwa [Value.isTrue_bare]) (hright b hb)
  · intro u target hu htrue r stop after _
    refine wp_pure fun v hv => ?_
    obtain rfl : a = v := Option.some.inj ((wrote_get?_self _ _ _).symm.trans hv)
    obtain rfl : a = u := Option.some.inj ((wrote_get?_self _ _ _).symm.trans hu)
    exact hskip (hl a ha) (by rwa [Value.isTrue_bare])

/-- Nothing is claimed of a call of `print`, which leaves its register empty. -/
theorem call_reads {name : String} {args : List Expr} (he : (Expr.call name args).AssignmentFree)
    (h : ∀ e ∈ args, ReadsAs A w e) : ReadsAs A w (.call name args) := by
  refine readsAs_of he fun hs => ?_
  rcases call_cases name args with ⟨rfl, heq⟩ | ⟨arg, rfl, rfl, heq⟩ | ⟨e, heq⟩
  · rw [heq]
    refine wp_bind (wp_mono (exprs_reads h hs) ?_)
    rintro os mid t _ ⟨_, _, hran, _⟩
    refine wp_bind
      (wp_print (fun _ => trivial) (fun _ _ => trivial) trivial fun values sink _ _ => ?_)
    -- The register of the call is the next one to be issued, which is empty.
    refine wp_bind (wp_fresh (wp_pure fun v hv => ?_))
    have hempty : t.registers.get? mid.registers = none := (hs.ran hran).vacant (Nat.le_refl _)
    rw [hempty] at hv
    cases hv
  · rw [heq]
    refine wp_bind (wp_mono (h arg List.mem_cons_self hs) ?_)
    rintro o mid t _ ⟨heval, _, _⟩
    refine wp_bind (wp_checkContainer (into_ends fun effect heff => ?_))
    obtain ⟨u, size, hu, hsize, rfl⟩ := Instruction.effect_len heff
    refine ⟨_, rfl, holds_wrote ?_⟩
    rw [Value.bare_number]
    exact Expr.eval_len (heval u hu) (congrArg Except.toOption (Value.size_bare hsize))
  · rw [heq]
    exact wp_fail

/-! ### The cases of an expression -/

theorem literal_reads {u : Value} (he : (Expr.literal u).AssignmentFree) :
    ReadsAs A w (.literal u) := by
  refine readsAs_of he fun _ => into_ends fun effect heff => ?_
  obtain rfl := Except.ok.inj heff
  exact ⟨u, rfl, holds_wrote (by simp [Expr.eval])⟩

theorem ident_reads {name : String} (he : (Expr.ident name).AssignmentFree) (hA : A name) :
    ReadsAs A w (.ident name) := by
  refine readsAs_of he fun {_ scope _} hs => ?_
  rw [expr]
  refine wp_bind (wp_find? ?_)
  cases hb : scope.find? name with
  | none => exact wp_fail
  | some b =>
    refine wp_pure fun v hv => ?_
    exact Expr.eval_ident_eq_some_iff.2 ⟨_, hs.holds hb hA v hv, rfl, rfl⟩

theorem group_reads {inner : Expr} (he : (Expr.group inner).AssignmentFree)
    (h : ReadsAs A w inner) : ReadsAs A w (.group inner) := by
  refine readsAs_of he fun hs => ?_
  rw [expr]
  refine wp_mono (h hs) ?_
  rintro o after t _ ⟨heval, _, _⟩ v hv
  rw [Expr.eval_group]
  exact heval v hv

theorem array_reads {items : List Expr} (he : (Expr.array items).AssignmentFree)
    (h : ∀ e ∈ items, ReadsAs A w e) : ReadsAs A w (.array items) := by
  refine readsAs_of_finish he h fun hs hlen hlt heval => into_ends fun effect heff => ?_
  obtain ⟨values, hvalues, rfl⟩ := Instruction.effect_makeArray heff
  refine ⟨_, rfl, holds_wrote ?_⟩
  rw [List.map_map] at hvalues
  rw [Value.bare_array]
  exact Expr.eval_array_eq_some_iff.2 ⟨_, heval values hvalues, rfl⟩

theorem map_reads {entries : List (Expr × Expr)} (he : (Expr.map entries).AssignmentFree)
    (h : ∀ x ∈ (Expr.map entries).operands, ReadsAs A w x) : ReadsAs A w (.map entries) := by
  refine readsAs_of_finish he h fun hs hlen hlt heval => ?_
  refine wp_mono (operate_uses (e := .map entries) rfl hlen hlt) ?_
  rintro o after t _ ⟨values, hvalues, huses⟩ v hv
  cases huses with
  | @map _ kind pairs ht =>
    obtain rfl := Option.some.inj (ht.symm.trans hv)
    have hall := heval _ hvalues
    rw [List.map_flatMap] at hall
    have hpairs : Expr.evalEntries entries w = some ((pairs.map fun p => (p.1.bare, p.2.bare)).map
        fun p => (p.1.key, p.2), w) := evalEntries_of_evalAll (by rw [List.flatMap_map]; exact hall)
    refine Expr.eval_map_eq_some_iff.2 ⟨_, hpairs, ?_⟩
    rw [Value.bare_map, ofList_entries_bare]
    simp [Function.comp_def]

theorem element_reads {base key : Expr} (he : (Expr.element base key).AssignmentFree)
    (h : ∀ x ∈ [base, key], ReadsAs A w x) : ReadsAs A w (.element base key) := by
  refine readsAs_of_finish he h fun hs hlen _ heval => ?_
  obtain ⟨c, k, rfl⟩ := List.length_eq_two.1 hlen
  refine get_ends fun kind cv kv u hc hk hat => holds_wrote ?_
  obtain ⟨w₁, hbase, hkey⟩ := eval_of_evalAll_two (heval [cv, kv] (by simp [hc, hk]))
  exact Expr.eval_element_eq_some_iff.2 ⟨_, _, _, w₁, hbase, hkey, hat, rfl⟩

theorem unary_reads {op : UnaryOp} {operand : Expr} (he : (Expr.unary op operand).AssignmentFree)
    (h : ∀ x ∈ [operand], ReadsAs A w x) : ReadsAs A w (.unary op operand) := by
  refine readsAs_of_finish he h fun hs hlen _ heval => ?_
  obtain ⟨o, rfl⟩ := List.length_eq_one_iff.1 hlen
  refine negation_ends fun kind a u ha hneg => holds_wrote ?_
  exact Expr.eval_unary_eq_some_iff.2
    ⟨_, _, eval_of_evalAll_one (heval [a] (by simp [ha])), hneg, rfl⟩

section Binary

variable {left right : Expr}

theorem arith_reads {op : Arith} (he : (Expr.binary left (.arith op) right).AssignmentFree)
    (h : ∀ x ∈ [left, right], ReadsAs A w x) : ReadsAs A w (.binary left (.arith op) right) := by
  refine readsAs_of_finish he h fun hs hlen _ heval => ?_
  obtain ⟨l, r, rfl⟩ := List.length_eq_two.1 hlen
  refine arith_ends fun kind a b u ha hb harith => holds_wrote ?_
  obtain ⟨w₁, hleft, hright⟩ := eval_of_evalAll_two (heval [a, b] (by simp [ha, hb]))
  exact Expr.eval_arith_eq_some_iff.2 ⟨_, _, _, w₁, hleft, hright, harith, rfl⟩

theorem relation_reads {op : Relation} (he : (Expr.binary left (.relation op) right).AssignmentFree)
    (h : ∀ x ∈ [left, right], ReadsAs A w x) : ReadsAs A w (.binary left (.relation op) right) := by
  refine readsAs_of_finish he h fun hs hlen _ heval => ?_
  obtain ⟨l, r, rfl⟩ := List.length_eq_two.1 hlen
  refine into_ends fun effect heff => ?_
  obtain ⟨a, b, holds, ha, hb, hholds, rfl⟩ := Instruction.effect_relate heff
  refine ⟨_, rfl, holds_wrote ?_⟩
  obtain ⟨w₁, hleft, hright⟩ := eval_of_evalAll_two (heval [a, b] (by simp [ha, hb]))
  have hbare := congrArg Except.toOption (Value.relation_bare hholds)
  rw [Value.bare_bool]
  exact Expr.eval_relation_eq_some_iff.2 ⟨_, _, _, w₁, hleft, hright, hbare, rfl⟩

theorem and_reads (he : (Expr.binary left .and right).AssignmentFree) (hl : ReadsAs A w left)
    (hr : ReadsAs A w right) : ReadsAs A w (.binary left .and right) := by
  refine readsAs_of he fun hs => ?_
  rw [expr]
  refine wp_bind (wp_mono (hl hs) ?_)
  rintro l mid t _ ⟨hleft, hran, _⟩
  refine connect_reads hr branches_jumpUnless ?_ ?_ (hs.ran hran) hleft
  · intro a heval hfalse
    exact Expr.eval_and_eq_some_iff.2 ⟨a, w, heval, Or.inl ⟨hfalse, rfl, rfl⟩⟩
  · intro a b heval htrue hright
    exact Expr.eval_and_eq_some_iff.2 ⟨a, w, heval, Or.inr ⟨by simpa using htrue, b, hright, rfl⟩⟩

theorem or_reads (he : (Expr.binary left .or right).AssignmentFree) (hl : ReadsAs A w left)
    (hr : ReadsAs A w right) : ReadsAs A w (.binary left .or right) := by
  refine readsAs_of he fun hs => ?_
  rw [expr]
  refine wp_bind (wp_mono (hl hs) ?_)
  rintro l mid t _ ⟨hleft, hran, _⟩
  refine connect_reads hr branches_jumpIf ?_ ?_ (hs.ran hran) hleft
  · intro a heval htrue
    exact Expr.eval_or_eq_some_iff.2 ⟨a, w, heval, Or.inl ⟨htrue, rfl, rfl⟩⟩
  · intro a b heval hfalse hright
    exact Expr.eval_or_eq_some_iff.2 ⟨a, w, heval, Or.inr ⟨by simpa using hfalse, b, hright, rfl⟩⟩

end Binary

/-- The code of an expression without assignments computes what the evaluator says. -/
theorem expr_reads {e : Expr} (h : e.OnlyReads A) : ReadsAs A w e := by
  -- On the operands, with a case for each constructor and each operator.
  obtain ⟨he, hA⟩ := h
  induction e using Expr.inductOperands with
  | step e ih ihb =>
    have hops : ∀ x ∈ e.operands, ReadsAs A w x :=
      fun x hx => ih x hx (all_of_mem_operands he hx) (all_of_mem_operands hA hx)
    cases e with
    | literal u => exact literal_reads he
    | ident name => exact ident_reads he (hA.self name rfl)
    | group inner => exact group_reads he (hops inner List.mem_cons_self)
    | array items => exact array_reads he hops
    | map entries => exact map_reads he hops
    | call name args => exact call_reads he hops
    | element base key => exact element_reads he hops
    | unary op operand => exact unary_reads he hops
    | binary left op right =>
      obtain ⟨_, _, hfree⟩ := Expr.all_binary_iff.1 he
      obtain ⟨_, _, hmentions⟩ := Expr.all_binary_iff.1 hA
      have hright : ReadsAs A w right := (ihb left op right rfl).2 hfree hmentions
      cases op with
      | arith op => exact arith_reads he hops
      | relation op => exact relation_reads he hops
      | and => exact and_reads he (hops left List.mem_cons_self) hright
      | or => exact or_reads he (hops left List.mem_cons_self) hright
      | assign => cases he.self
      | update op => cases he.self

end Lowering

end LineScript
