import LineScript.Proofs.Code.Hints

/-!
# Hints are right in every run

`Lowering.expr_typed` speaks about code that is entered with the right hints. Here it is turned into
a statement about the states of a run. A state that lies inside the code of a site, or right behind
it, has been reached through the start of that code (`Site.entered`): jumps only skip right
operands, and the one over a right operand skips the copy behind it too. With the hints of the
variables right at the start of every site, they are right behind every site.
-/

set_option autoImplicit false

namespace LineScript

open State Emit

namespace Lowering

variable {strict : Prop} {p : Program} {code : List Instruction} {start s t : State}
    {task child : Task} {n m : Nat} {scope after : Scope}

/-! ## What a task begins with -/

/-- The code of a task stands at the beginning of a piece. -/
def Task.Begins (task : Task) (n : Nat) (scope : Scope) (piece : List Instruction) : Prop :=
  ∃ a rest, task.lower n scope = .ok a ∧ piece = a.code ++ rest

theorem begins_of_bind {e : Expr} {α : Type} {f : Operand → Emit α} {b : Emitted α}
    (h : (expr e >>= f) n scope = .ok b) : (Task.value e).Begins n scope b.code := by
  obtain ⟨x, y, hx, _, rfl⟩ := bind_eq_ok h
  exact ⟨_, y.code, Task.lower_value hx, rfl⟩

theorem Task.Begins.append {piece : List Instruction} (h : task.Begins n scope piece)
    (more : List Instruction) : task.Begins n scope (piece ++ more) := by
  obtain ⟨a, rest, ha, rfl⟩ := h
  exact ⟨a, rest ++ more, ha, List.append_assoc _ _ _⟩

theorem begins_of_store {target : Expr} {v : Operand} {α : Type} {f : Unit → Emit α} {b : Emitted α}
    (h : (store target v >>= f) n scope = .ok b) : (Task.store target v).Begins n scope b.code := by
  obtain ⟨x, y, hx, _, rfl⟩ := bind_eq_ok h
  exact ⟨x, y.code, hx, rfl⟩

/-! ## Entering a site -/

/-- What is known where the code of a task is entered. -/
def Ready (strict : Prop) : Task → Scope → State → Prop
  | .value _, scope, s => Typed strict scope s
  | .store _ v, scope, s => Kept strict v scope s ∧ Sound strict s v

theorem Ready.typed (h : Ready strict task scope s) : Typed strict scope s := by
  cases task with
  | value e => exact h
  | store target v => exact h.1.1

/-- The code of a task is there, and a run that is inside it or right behind it has entered it at
its start. -/
def Entered (strict : Prop) (code : List Instruction) (start : State) (task : Task) (n : Nat)
    (scope : Scope) : Prop :=
  ∃ a, task.lower n scope = .ok a ∧ Placed code n a.code ∧
    ∀ t, Reaches code start t → n ≤ t.next → t.next ≤ n + a.code.length →
      ∃ s, Reaches code start s ∧ Reaches code s t ∧ s.next = n ∧ Ready strict task scope s

/-- A task that stands behind some other code of an entered task is entered through it. -/
theorem Entered.behind {α : Type} {x : Emit α} {v : α} {Q : α → Scope → State → Prop}
    (h : Entered strict code start task n scope) (hx : x.Yields n scope v m after)
    (hsplit : ∀ a, task.lower n scope = .ok a → ∃ f : α → Emit Unit, (x >>= f) n scope = .ok a ∧
      ∀ b, f v m after = .ok b → child.Begins m after b.code)
    (hwp : ∀ s, s.next = n → Ready strict task scope s → checks code x Q scope s)
    (hready : ∀ u, Q v after u → Ready strict child after u) :
    Entered strict code start child m after := by
  obtain ⟨a, ha, hplaced, hthrough⟩ := h
  obtain ⟨piece, hpiece, hm⟩ := hx
  obtain ⟨f, hf, hchild⟩ := hsplit a ha
  obtain ⟨x', b, hx', hb, rfl⟩ := bind_eq_ok hf
  obtain rfl := Except.ok.inj (hpiece.symm.trans hx')
  obtain ⟨c, rest, hc, hcode⟩ := hchild b (by rw [hm]; exact hb)
  simp only [hcode] at hplaced hthrough
  refine ⟨c, hc, hm ▸ hplaced.right.left, fun t ht hle hlt => ?_⟩
  simp only [List.length_append] at hthrough
  obtain ⟨s, hs, hst, hn, hready'⟩ := hthrough t ht (by omega) (by omega)
  -- From the start of the task the run has gone through `x` to the end of it.
  have hpassed := wp_passes (hwp s hn hready') (hn ▸ hpiece) (hn ▸ hplaced.left) (hn ▸ hm) hst hle
  obtain ⟨u, hsu, hut, hun, hQ⟩ := hpassed
  exact ⟨u, hs.trans hsu, hut, hun, hready u hQ⟩

/-- An operand is entered through the operands before it. -/
theorem Entered.operand {earlier later : List Expr} {e : Expr} {os : List Operand}
    (hsteady : Steady strict p) (hp : ∀ st ∈ p, st.expr.ScalarLiterals)
    (hsite : Site p task n scope) (h : Entered strict code start task n scope)
    (hops : task.operands = earlier ++ e :: later)
    (hpre : (exprs earlier).Yields n scope os m after) :
    Entered strict code start (.value e) m after := by
  refine h.behind (Q := fun _ => Typed strict) hpre ?_ ?_ fun u hu => hu
  · intro a ha
    have hfactors := Task.factors ha
    rw [hops] at hfactors
    obtain ⟨x, y, hx, hy, rfl⟩ := bind_eq_ok hfactors
    obtain ⟨b, c, hb, hc, rfl⟩ := exprs_append hx
    refine ⟨fun os => exprs (e :: later) >>= fun more => task.rest (os ++ more), ?_, ?_⟩
    · rw [List.length_append, ← Nat.add_assoc] at hy
      have hrest := bind_ok (f := fun more => task.rest (b.value ++ more)) hc hy
      have hall :=
        bind_ok (f := fun os => exprs (e :: later) >>= fun more => task.rest (os ++ more)) hb hrest
      rwa [← List.append_assoc] at hall
    · intro b' hb'
      obtain ⟨x', y', hx', _, rfl⟩ := bind_eq_ok hb'
      rw [exprs] at hx'
      exact (begins_of_bind hx').append _
  · intro s hn hready
    subst hn
    have hnone : (exprs []).Yields s.next scope [] s.next scope := ⟨[], rfl, rfl⟩
    have hall : task.operands = [] ++ (earlier ++ e :: later) := hops
    refine wp_mono
      (exprs_typed hsite hall hnone (fun e _ => expr_typed hsteady hp e) hready.typed ?_) ?_
    · exact fun o ho => absurd ho List.not_mem_nil
    · rintro os after t _ ⟨_, ht, _⟩
      exact ht

/-- A run that is in a right operand, or right behind it, was at the start of it: the jump over it
leads beyond the copy behind it. -/
theorem passes_right {jump : Register → Nat → Instruction} {taken : Bool} {l r : Register}
    {target stop : Nat} (hf : Forward code) (hjump : Branches (jump r) r taken)
    (hcopy : code[s.next]? = some (.copy l r)) (hskip : code[s.next + 1]? = some (jump r target))
    (htarget : stop < target) (hr : Reaches code s t) (hle : s.next + 2 ≤ t.next)
    (hlt : t.next ≤ stop) :
    ∃ v, Reaches code s { s.wrote r v with next := s.next + 2 } ∧
      Reaches code { s.wrote r v with next := s.next + 2 } t := by
  -- Two steps, the copy and the jump; after the jump the run is at the operand or beyond the copy
  -- behind it.
  have hleads : Leads code (fun u => u.next < s.next + 2) (fun _ _ => True)
      (fun u => (∃ v, u = { s.wrote r v with next := s.next + 2 }) ∨ stop < u.next) s := by
    refine .step hcopy (by omega) (fun _ _ _ => trivial) fun t₁ ht₁ => ?_
    obtain ⟨effect, he, hperform⟩ := execute_eq_none_iff.1 ht₁
    obtain ⟨v, _, rfl⟩ := Instruction.effect_copy he
    obtain rfl : s.wrote r v = t₁ := congrArg Prod.fst hperform
    refine .step hskip (Nat.lt_succ_self _) (fun _ _ _ => trivial) fun t₂ ht₂ => .here ?_
    obtain ⟨_, _, ⟨_, rfl⟩ | ⟨_, rfl⟩⟩ := hjump.moves ht₂
    · exact Or.inr htarget
    · exact Or.inl ⟨v, rfl⟩
  rcases hleads.passes hr with ⟨hbefore, _⟩ | ⟨u, ⟨v, rfl⟩ | hbeyond, hsu, hut⟩
  · omega
  · exact ⟨v, hsu, hut⟩
  · have hforward := Reaches.le hf hut
    omega

/-- A right operand is entered through the left one. -/
theorem Entered.right {jump : Register → Nat → Instruction} {taken : Bool} {left right : Expr}
    {op : BinaryOp} {l : Operand} (hf : Forward code) (hjump : ∀ r, Branches (jump r) r taken)
    (hconnect : expr (.binary left op right) = expr left >>= fun l => connect jump l (expr right))
    (hleft : TypedAt strict p left) (hsite : Site p (.value left) n scope)
    (h : Entered strict code start (.value (.binary left op right)) n scope)
    (hl : (expr left).Yields n scope l m after) :
    Entered strict code start (.value right) (m + 2)
      { after with registers := after.registers + 1 } := by
  obtain ⟨a, ha, hplaced, hthrough⟩ := h
  obtain ⟨piece, hpiece, hm⟩ := hl
  obtain ⟨x, y, hx, hy, rfl⟩ := bind_eq_ok ha
  obtain rfl := Except.ok.inj hy
  rw [hconnect] at hx
  obtain ⟨x', b, hx', hb, rfl⟩ := bind_eq_ok hx
  obtain rfl := Except.ok.inj (hpiece.symm.trans hx')
  rw [← hm] at hb
  obtain ⟨c, hc, _, hcode⟩ := connect_code hb
  simp only [hcode, List.append_nil] at hplaced hthrough
  have hbehind := hplaced.right
  rw [← hm] at hbehind
  refine ⟨⟨(), c.code, c.scope⟩, Task.lower_value hc, hbehind.tail.tail.left,
    fun t ht hle hlt => ?_⟩
  simp only [List.length_append, List.length_cons, List.length_nil] at hlt hthrough
  obtain ⟨s, hs, hst, hn, hready⟩ := hthrough t ht (by omega) (by omega)
  subst hn
  -- Through the left operand, and then past copy and jump.
  have hpassed := wp_passes (hleft.expr hsite hready) hpiece hplaced.left hm hst (by omega)
  obtain ⟨u, hsu, hut, hun, htu, _⟩ := hpassed
  subst hun
  have hbeyond : u.next + 2 + c.code.length < u.next + c.code.length + 3 := by omega
  obtain ⟨v, huv, hvt⟩ :=
    passes_right hf (hjump _) hbehind.head hbehind.tail.head hbeyond hut hle hlt
  exact ⟨_, hs.trans (hsu.trans huv), hvt, rfl, htu.wrote_fresh.moved⟩

/-- A store is entered through the value that an assignment computes. -/
theorem Entered.assign {target value : Expr} {v : Operand} (hsteady : Steady strict p)
    (hp : ∀ st ∈ p, st.expr.ScalarLiterals)
    (hsite : Site p (.value (.binary target .assign value)) n scope)
    (h : Entered strict code start (.value (.binary target .assign value)) n scope)
    (hv : (expr value).Yields n scope v m after) :
    Entered strict code start (.store target v) m after := by
  refine h.behind (Q := fun v after u => Kept strict v after u ∧ Sound strict u v) hv ?_ ?_
    fun u hu => hu
  · intro a ha
    rw [Task.lower, expr] at ha
    split at ha
    · rw [bind_assoc] at ha
      refine ⟨_, ha, fun b hb => ?_⟩
      rw [bind_assoc] at hb
      exact begins_of_store hb
    · cases ha
  · intro s hn ht
    subst hn
    refine wp_mono ((expr_typed hsteady hp value).expr (hsite.first rfl) ht) ?_
    rintro o after t hyields ⟨ht', ho⟩
    have hfresh := hsteady.uses hsite rfl (exprs_yields_one hyields) o List.mem_cons_self
    exact ⟨⟨ht', ho⟩, ho.sound_of_fresh ht' hfresh⟩

/-- A store is entered through the operation of a compound assignment. -/
theorem Entered.update {target value : Expr} {op : Arith} {v : Operand}
    (hsteady : Steady strict p) (hp : ∀ st ∈ p, st.expr.ScalarLiterals)
    (hsite : Site p (.value (.binary target (.update op) value)) n scope)
    (h : Entered strict code start (.value (.binary target (.update op) value)) n scope)
    (hv : (do let x ← expr target; let y ← expr value; arith op x y).Yields n scope v m after) :
    Entered strict code start (.store target v) m after := by
  refine h.behind (Q := fun v after u => Kept strict v after u ∧ Sound strict u v) hv ?_ ?_
    fun u hu => hu
  · intro a ha
    rw [Task.lower, expr] at ha
    split at ha
    · refine ⟨fun v => do store target v; pure (), ?_, fun b hb => begins_of_store hb⟩
      simp only [bind_assoc] at ha ⊢
      exact ha
    · cases ha
  · intro s hn ht
    subst hn
    refine wp_bind (wp_mono (expr_ran target.assignsOnly_true ht.wf
      ((expr_typed hsteady hp target).expr (hsite.first rfl) ht)) ?_)
    rintro x mid t₁ hx ⟨⟨ht₁, htrust⟩, _⟩
    refine wp_bind (wp_mono (expr_ran value.assignsOnly_true ht₁.wf
      ((expr_typed hsteady hp value).expr (hsite.second rfl hx) ht₁)) ?_)
    rintro y after' t₂ hy ⟨⟨ht₂, htrust'⟩, hran, _⟩
    have hfresh := hsteady.uses hsite rfl (exprs_snoc (exprs_yields_one hx) hy)
    have hxs := (htrust.ran hran).sound_of_fresh ht₂ (hfresh x (by simp))
    have hys := htrust'.sound_of_fresh ht₂ (hfresh y (by simp))
    exact arith_typed ht₂ hxs hys

/-- A container is stored back behind the store into it. -/
theorem Entered.back {base key outer : Expr} {value c : Operand} (hsteady : Steady strict p)
    (hp : ∀ st ∈ p, st.expr.ScalarLiterals)
    (hsite : Site p (.store (.element (.element base key) outer) value) n scope)
    (h : Entered strict code start (.store (.element (.element base key) outer) value) n scope)
    (hc : (do let x ← expr (.element base key); let y ← expr outer; put x y value).Yields n scope c
      m after) : Entered strict code start (.store (.element base key) c) m after := by
  refine h.behind (Q := fun v after u => Kept strict v after u ∧ Sound strict u v) hc ?_ ?_
    fun u hu => hu
  · intro a ha
    rw [Task.lower, store] at ha
    refine ⟨store (.element base key), ?_, fun b hb => ⟨b, [], hb, (List.append_nil _).symm⟩⟩
    simp only [bind_assoc]
    exact ha
  · intro s hn hready
    subst hn
    obtain ⟨⟨ht, hv⟩, _⟩ := hready
    refine container_typed hsteady (expr_typed hsteady hp _) (expr_typed hsteady hp outer)
      hsite ht hv ?_
    intro x y after t _ ht' hres hxs hvs
    exact put_copy_typed ht' hres hxs hvs

/-- A statement is entered through the statements before it. -/
theorem Entered.statement {earlier later : Program} {st : Statement} {all : Emitted Unit}
    {routine : Routine} {sink : Sink} (hsteady : Steady strict p)
    (hp : ∀ st ∈ p, st.expr.ScalarLiterals) (hlower : p.lower = .ok routine)
    (hsplit : p = earlier ++ st :: later) (hall : statements 0 .empty earlier = .ok all) :
    Entered strict routine.code (routine.start sink) (.value st.expr) all.code.length
      all.scope := by
  obtain ⟨hfirst, others, hothers, hbehind⟩ := placed_of_lower (hsplit ▸ hlower) hall
  obtain ⟨a, rest, ha, _, rfl⟩ := statements_cons hothers
  refine ⟨_, Task.lower_value ha, hbehind.left, fun t ht hle _ => ?_⟩
  have hinitial : Typed strict .empty (routine.start sink) := Variables.initial routine sink
  rcases (statements_typed hsteady hp hsplit hall hfirst rfl hinitial).passes ht with
    ⟨⟨hbefore, _⟩, _⟩ | ⟨u, ⟨hn, htu⟩, hu, hut⟩
  · omega
  · exact ⟨u, hu, hut, hn, htu⟩

/-- The code of every site is entered at its start, and what is known there is right. -/
theorem Site.entered {routine : Routine} {sink : Sink} (hsteady : Steady strict p)
    (hp : ∀ st ∈ p, st.expr.ScalarLiterals) (hlower : p.lower = .ok routine)
    (h : Site p task n scope) : Entered strict routine.code (routine.start sink) task n scope := by
  have hf := Program.lower_forward hlower
  -- On the site, from the statement inwards.
  induction h with
  | statement hsplit hall => exact .statement hsteady hp hlower hsplit hall
  | operand hsite hops hpre ih => exact ih.operand hsteady hp hsite hops hpre
  | @right left right op n stop scope after l hsite hop hl ih =>
    have hleft := expr_typed hsteady hp left
    rcases hop with rfl | rfl
    · exact ih.right hf branches_jumpUnless (by rw [expr]) hleft (hsite.first rfl) hl
    · exact ih.right hf branches_jumpIf (by rw [expr]) hleft (hsite.first rfl) hl
  | assign hsite hv ih => exact ih.assign hsteady hp hsite hv
  | update hsite hv ih => exact ih.update hsteady hp hsite hv
  | back hsite hc ih => exact ih.back hsteady hp hsite hc

end Lowering

/-! ## Faults by name -/

/-- The opcodes of the instructions that rely on a hint, with what they would find to be missing. -/
def hintedOpcodes : List (String × Shape) :=
  [("Concat", .string), ("Combine", .data), ("ArrayGet", .array), ("ArraySet", .array)]

theorem refutesHint_of_mem {i : Instruction} {shape : Shape} {found : Kind}
    (h : (i.opcode, shape) ∈ hintedOpcodes) :
    (Fault.mismatch shape found).refutesHint i = true := by
  simp only [hintedOpcodes, List.mem_cons, Prod.mk.injEq, List.not_mem_nil, or_false] at h
  cases i with
  | concat l r d =>
    obtain rfl : shape = .string := by simpa [Instruction.opcode] using h
    rfl
  | combine l r d =>
    obtain rfl : shape = .data := by simpa [Instruction.opcode] using h
    rfl
  | getItem a k d =>
    obtain rfl : shape = .array := by simpa [Instruction.opcode] using h
    rfl
  | setItem a k v =>
    obtain rfl : shape = .array := by simpa [Instruction.opcode] using h
    rfl
  | arith op l r d => cases op <;> simp [Instruction.opcode, Arith.name] at h
  | relate op l r d => cases op <;> simp [Instruction.opcode, Relation.name] at h
  | _ => simp [Instruction.opcode] at h

/-! ## Programs -/

/-- In every run of a program's code, hints are right wherever they are given. -/
structure HintsHold (p : Program) (routine : Routine) (sink : Sink) : Prop where
  /-- Behind the code of an expression that is no assignment, its register holds what its hint
  says. -/
  expressions :
      ∀ e n scope, Lowering.Site p (.value e) n scope → e.isAssignment = false →
        ∃ a, Lowering.expr e n scope = .ok a ∧ Placed routine.code n a.code ∧
          ∀ t k, Reaches routine.code (routine.start sink) t →
            t.next = n + a.code.length → a.value.kind = some k →
            ∃ v, t.registers.get? a.value.register = some v ∧ v.conforms k = true
  /-- Behind a statement, the register of every variable holds what the hint of the variable
  says. -/
  statements : ∀ earlier later, p = earlier ++ later →
    ∃ all, Lowering.statements 0 .empty earlier = .ok all ∧ Placed routine.code 0 all.code ∧
      ∀ t x b k, Reaches routine.code (routine.start sink) t → t.next = all.code.length →
        all.scope.find? x = some b → b.kind = some k →
          ∃ v, t.registers.get? b.register = some v ∧ v.conforms k = true
  /-- No instruction that was selected by a hint finds another kind. -/
  faults : ∀ limit index opcode shape found,
    (routine.run limit sink).result = .error (.instruction index opcode (.mismatch shape found)) →
      (opcode, shape) ∉ hintedOpcodes

namespace Program

open Lowering

variable {p : Program} {routine : Routine} {sink : Sink}

theorem held_of_fits {held : Option Value} {kind : Option Kind} {k : Kind} (h : Fits True kind held)
    (hk : kind = some k) : ∃ v, held = some v ∧ v.conforms k = true := by
  obtain ⟨hconf, hne⟩ := h k hk
  obtain ⟨v, hv⟩ := Option.ne_none_iff_exists'.1 (hne trivial)
  exact ⟨v, hv, hconf v hv⟩

/-- **Hints are right.** If the literals of a program are scalars and its assignments stand at the
roots of statements, no hint is ever wrong. -/
theorem hints_hold (p : Program) (routine : Routine) (sink : Sink)
    (hscalar : ∀ st ∈ p, st.expr.ScalarLiterals) (hroots : ∀ st ∈ p, st.expr.AssignsAtRoot)
    (hlower : p.lower = .ok routine) : HintsHold p routine sink := by
  have hsteady : Steady True p := steady_of_assignsAtRoot hroots
  have hf := Program.lower_forward hlower
  have hinitial : Typed True .empty (routine.start sink) := Variables.initial routine sink
  refine ⟨fun e n scope hsite he => ?_, fun earlier later hsplit => ?_,
    fun limit index opcode shape found hrun hmem => ?_⟩
  · have hentered : Entered True routine.code (routine.start sink) (.value e) n scope :=
      hsite.entered hsteady hscalar hlower
    obtain ⟨a, ha, hplaced, hthrough⟩ := hentered
    obtain ⟨x, y, hx, hy, rfl⟩ := bind_eq_ok ha
    obtain rfl := Except.ok.inj hy
    simp only [List.append_nil] at hplaced hthrough
    refine ⟨x, hx, hplaced, fun t k ht hn hk => ?_⟩
    obtain ⟨s, hs, hst, rfl, hready⟩ := hthrough t ht (by omega) (by omega)
    have hpassed :=
      wp_passes ((expr_typed hsteady hscalar e).expr hsite hready) hx hplaced hn hst (Nat.le_refl _)
    obtain ⟨u, hsu, hut, hun, htu, htrust⟩ := hpassed
    obtain rfl := hut.eq_of_next_eq hf (Nat.le_of_eq hun.symm)
    have hfree : e.AssignmentFree := Expr.all_iff.2 ⟨he, hsite.assignsAtRoot hroots⟩
    have hcurrent := current_of_assignmentFree hfree hsite.wf ⟨x.code, hx, rfl⟩
    exact held_of_fits (htrust.sound_of_fresh htu (hcurrent.fresh htu.wf)) hk
  · obtain ⟨whole, hwhole, _⟩ := statements_of_lower hlower
    rw [hsplit] at hwhole
    obtain ⟨all, _, hall, _⟩ := statements_append hwhole
    have hplaced := (placed_of_lower (hsplit ▸ hlower) hall).1
    refine ⟨all, hall, hplaced, fun t x b k ht hn hb hk => ?_⟩
    rcases (statements_typed hsteady hscalar hsplit hall hplaced rfl hinitial).passes ht with
      ⟨⟨hbefore, _⟩, _⟩ | ⟨u, ⟨hun, htu⟩, hu, hut⟩
    · omega
    · obtain rfl := hut.eq_of_next_eq hf (Nat.le_of_eq (hn.trans hun.symm))
      exact held_of_fits (htu.holds hb) hk
  · obtain ⟨u, t, i, hu, _, hi, rfl, hexec⟩ := Routine.run_failed hrun
    obtain ⟨all, hall, hr⟩ := statements_of_lower hlower
    have hplaced := placed_statements hlower hall
    have hend : routine.code.length = all.code.length := by rw [hr]
    rcases (statements_typed hsteady hscalar (List.append_nil p).symm hall hplaced rfl
      hinitial).fault hu hi hexec with
      hfine | ⟨w, ⟨hn, _⟩, _, hwu⟩
    · rw [refutesHint_of_mem hmem] at hfine
      cases hfine
    · -- Behind the last statement there is no instruction left to fail.
      have hnone : routine.code[w.next]? = none := List.getElem?_eq_none (by omega)
      rw [← hwu.eq_of_none hnone, hnone] at hi
      cases hi

/-- `x = ["a" + "b"]`, `x[0] = 1`, `y = x[0] and true` -/
def widenedItem : Program :=
  [⟨.binary (.ident "x") .assign
    (.array [.binary (.literal (.string "a")) (.arith .add) (.literal (.string "b"))]), default⟩,
    ⟨.binary (.element (.ident "x") (.literal (.number ⟨0, 0⟩)))
      .assign (.literal (.number ⟨1, 0⟩)), default⟩,
    ⟨.binary (.ident "y") .assign
      (.binary (.element (.ident "x") (.literal (.number ⟨0, 0⟩))) .and (.literal (.bool true))),
      default⟩]

/-- In `widenedItem`, the hint of `x` is widened by the second statement. -/
theorem hints_hold_widenedItem : ∃ routine, widenedItem.lower = .ok routine ∧
    HintsHold widenedItem routine (.new none) := by
  have hlower : widenedItem.lower = .ok ⟨[.load (.string "a") 0, .load (.string "b") 1,
      .concat 0 1 2, .makeArray .string [2] 3, .copy 3 4, .load (.number ⟨1, 0⟩) 5,
      .load (.number ⟨0, 0⟩) 6, .setItem 4 6 5, .load (.number ⟨0, 0⟩) 7, .getItem 4 7 8, .copy 8 9,
      .jumpUnless 9 14, .load (.bool true) 10, .copy 10 9, .copy 9 11], 12⟩ := by
    cbv
  have hscalar : ∀ st ∈ widenedItem, st.expr.ScalarLiterals := by
    simp [widenedItem, Expr.ScalarLiterals, Expr.all_iff, Expr.parts, Expr.nodesOf, Value.isScalar]
  have hroots : ∀ st ∈ widenedItem, st.expr.AssignsAtRoot := by
    simp [widenedItem, Expr.AssignsAtRoot, Expr.parts, Expr.nodesOf, Expr.isAssignment,
      BinaryOp.isAssignment]
  exact ⟨_, hlower, hints_hold _ _ _ hscalar hroots hlower⟩

end Program

end LineScript
