import LineScript.Proofs.Code.Surroundings

/-!
# Runs through a site

The proofs about code follow a run from a state at the start of a piece. This module says where such
states come from, and where they lead. The code of a task stands in the code of the program at the
index of its site (`Site.placed`). In every state that a run passes there, the registers that are
not issued yet are empty (`Site.vacant`), for all code in front writes smaller ones. And a run that
has been at the start of a piece and ends behind all code has been at the end of the piece in
between, whatever the piece is (`Grown.through`), since jumps lead forward and not out of it.
-/

set_option autoImplicit false

namespace LineScript

open State Emit

namespace Lowering

variable {p : Program} {task : Task} {n : Nat} {scope after : Scope} {code : List Instruction}
    {s t : State} {A : String → Prop}

/-! ## Where code stands -/

/-- The code of a task stands at an index, and all instructions in front of it write registers that
are issued. -/
structure Stands (code : List Instruction) (task : Task) (n : Nat) (scope : Scope) : Prop where
  placed : ∃ a, task.lower n scope = .ok a ∧ Placed code n a.code
  front_lt : ∀ k < n, ∀ i, code[k]? = some i → ∀ r, i.dest? = some r → r < scope.registers

/-- Behind a piece that stands where the task does. -/
theorem Stands.front_behind {α : Type} {piece : Emitted α} (h : Stands code task n scope)
    (hplaced : Placed code n piece.code) (hgrown : Grown (fun _ => True) scope n scope piece) :
    ∀ k < n + piece.code.length,
      ∀ i, code[k]? = some i → ∀ r, i.dest? = some r → r < piece.scope.registers := by
  intro k hk i hi r hr
  by_cases hfront : k < n
  · exact Nat.lt_of_lt_of_le (h.front_lt k hfront i hi r hr) hgrown.since.le
  · obtain ⟨j, hj, hget⟩ := hplaced.mem (Nat.le_of_not_lt hfront) hk
    obtain rfl : i = j := Option.some.inj (hi.symm.trans hget)
    exact (hgrown.dests i hj r hr).1

theorem Stands.operand {earlier later : List Expr} {e : Expr} {os : List Operand} {stop : Nat}
    (hwf : scope.WF) (h : Stands code task n scope) (hops : task.operands = earlier ++ e :: later)
    (hpre : (exprs earlier).Yields n scope os stop after) : Stands code (.value e) stop after := by
  obtain ⟨a, ha, hplaced⟩ := h.placed
  obtain ⟨x, z, hx, _, rfl⟩ := bind_eq_ok (Task.factors ha)
  obtain ⟨b, c, d, hb, hc, _, _, hcode, _⟩ := exprs_around (hops ▸ hx)
  obtain ⟨piece, hpiece, rfl⟩ := hpre
  obtain rfl := Except.ok.inj (hpiece.symm.trans hb)
  rw [hcode] at hplaced
  obtain ⟨hgrown, _⟩ := exprs_grown (A := fun _ => True) (fun e _ => e.assignsOnly_true) hwf hpiece
  exact ⟨⟨_, Task.lower_value hc, hplaced.left.left.right⟩,
    h.front_behind hplaced.left.left.left hgrown⟩

theorem Stands.right {left right : Expr} {op : BinaryOp} {l : Operand} {stop : Nat} (hwf : scope.WF)
    (h : Stands code (.value (.binary left op right)) n scope) (hop : op = .and ∨ op = .or)
    (hl : (expr left).Yields n scope l stop after) :
    Stands code (.value right) (stop + 2) { after with registers := after.registers + 1 } := by
  obtain ⟨a, ha, hplaced⟩ := h.placed
  obtain ⟨piece, hpiece, rfl⟩ := hl
  obtain ⟨x, y, hx, hy, rfl⟩ := bind_eq_ok ha
  obtain rfl := Except.ok.inj hy
  rw [List.append_nil] at hplaced
  have hconnect : ∃ jump : Register → Nat → Instruction, (∀ r t, (jump r t).dest? = none) ∧
      expr (.binary left op right) = expr left >>= fun l => connect jump l (expr right) := by
    rcases hop with rfl | rfl
    · exact ⟨.jumpUnless, fun _ _ => rfl, by rw [expr]⟩
    · exact ⟨.jumpIf, fun _ _ => rfl, by rw [expr]⟩
  obtain ⟨jump, hjump, hconnect⟩ := hconnect
  rw [hconnect] at hx
  obtain ⟨u, b, hu, hb, rfl⟩ := bind_eq_ok hx
  obtain rfl := Except.ok.inj (hpiece.symm.trans hu)
  obtain ⟨c, hc, _, hcode⟩ := connect_code hb
  have hfront := h.front_behind hplaced.left (expr_grown left.assignsOnly_true hwf hpiece).1
  have hbehind := hplaced.right
  rw [hcode] at hbehind
  refine ⟨⟨_, Task.lower_value hc, hbehind.tail.tail.left⟩, fun k hk i hi r hr => ?_⟩
  -- Behind the left operand stand the copy, into the register that is issued last, and the jump.
  rcases Nat.lt_trichotomy k (n + piece.length) with hlt | rfl | hgt
  · exact Nat.lt_succ_of_lt (hfront k hlt i hi r hr)
  · obtain rfl := Option.some.inj (hi.symm.trans hbehind.head)
    obtain rfl := Option.some.inj hr
    exact Nat.lt_succ_self _
  · obtain rfl : k = n + piece.length + 1 := by omega
    obtain rfl := Option.some.inj (hi.symm.trans hbehind.tail.head)
    rw [hjump] at hr
    cases hr

/-- The part of a task that stands last. -/
theorem Stands.last {α : Type} {x : Emit α} {f : α → Task} {v : α} {stop : Nat} (hwf : scope.WF)
    (h : Stands code task n scope)
    (hlower : ∀ {a}, task.lower n scope = .ok a → (x >>= fun v => (f v).lower) n scope = .ok a)
    (hgrows : grows (fun _ => True) scope x (fun _ _ => True) n scope)
    (hv : x.Yields n scope v stop after) : Stands code (f v) stop after := by
  obtain ⟨a, ha, hplaced⟩ := h.placed
  obtain ⟨piece, hpiece, rfl⟩ := hv
  obtain ⟨b, c, hb, hc, rfl⟩ := bind_eq_ok (hlower ha)
  obtain rfl := Except.ok.inj (hpiece.symm.trans hb)
  exact ⟨⟨c, hc, hplaced.right⟩, h.front_behind hplaced.left (hgrows (.refl hwf) _ hpiece).1⟩

/-- The code of every site of a program that lowers stands at its place. -/
theorem Site.stands {routine : Routine} (hlower : p.lower = .ok routine) (h : Site p task n scope) :
    Stands routine.code task n scope := by
  induction h with
  | statement hp hall =>
    obtain ⟨hfirst, others, hothers, hbehind⟩ := placed_of_lower (hp ▸ hlower) hall
    obtain ⟨a, rest, ha, _, rfl⟩ := statements_cons hothers
    refine ⟨⟨_, Task.lower_value ha, hbehind.left⟩, fun k hk i hi r hr => ?_⟩
    obtain ⟨j, hj, hget⟩ := hfirst.mem (Nat.zero_le k) (by omega)
    obtain rfl : i = j := Option.some.inj (hi.symm.trans hget)
    exact ((statements_grown (.refl Scope.empty_wf) hall).dests i hj r hr).1
  | operand hsite hops hpre ih => exact ih.operand hsite.wf hops hpre
  | right hsite hop hl ih => exact ih.right hsite.wf hop hl
  | @assign target value _ _ _ _ _ hsite hv ih =>
    refine ih.last (f := fun v => .store target v) hsite.wf lower_assign ?_ hv
    exact grows_mono ((expr_grows value).expr value.assignsOnly_true) fun _ _ _ _ => trivial
  | @update target value op _ _ _ _ _ hsite hv ih =>
    refine ih.last (f := fun v => .store target v) hsite.wf lower_update ?_ hv
    refine grows_bind
      (grows_mono ((expr_grows target).expr target.assignsOnly_true) fun _ _ _ _ _ => ?_)
    refine grows_bind
      (grows_mono ((expr_grows value).expr value.assignsOnly_true) fun _ _ _ _ _ => ?_)
    exact grows_mono arith_grows fun _ _ _ _ => trivial
  | @back base key outer value _ _ _ _ _ hsite hc ih =>
    refine ih.last (f := fun c => .store (.element base key) c) hsite.wf lower_back ?_ hc
    refine grows_bind (grows_mono ((expr_grows _).expr (Expr.element base key).assignsOnly_true) ?_)
    intro x mid _ hx _
    refine grows_bind (grows_mono ((expr_grows outer).expr outer.assignsOnly_true) ?_)
    intro y after hs _ _
    exact grows_mono (put_grows (hx.since hs).lt fun _ => Or.inl (hx.unnamed rfl).1)
      fun _ _ _ _ => trivial

/-- The code of an expression at its site. -/
theorem Site.placed_expr {e : Expr} {routine : Routine} (hlower : p.lower = .ok routine)
    (h : Site p (.value e) n scope) :
    ∃ a, expr e n scope = .ok a ∧ Placed routine.code n a.code := by
  obtain ⟨a, ha, hplaced⟩ := (h.stands hlower).placed
  obtain ⟨x, y, hx, hy, rfl⟩ := bind_eq_ok ha
  obtain rfl := Except.ok.inj hy
  rw [List.append_nil] at hplaced
  exact ⟨x, hx, hplaced⟩

/-! ## What is empty at a site -/

/-- Registers that are not issued yet are empty. -/
def Vacant (scope : Scope) (s : State) : Prop :=
  ∀ r, scope.registers ≤ r → s.registers.get? r = none

theorem Vacant.ran (h : Vacant scope s) (hr : Ran A scope s after t) : Vacant after t := by
  intro r hle
  rw [hr.beyond hle]
  exact h r (Nat.le_trans hr.since.le hle)

/-- A run that comes to a site has not written a register that is issued later. -/
theorem Site.vacant {routine : Routine} {sink : Sink} (hlower : p.lower = .ok routine)
    (h : Site p task n scope) (hr : Reaches routine.code (routine.start sink) t) (hn : t.next = n) :
    Vacant scope t := by
  have hf := Program.lower_forward hlower
  intro r hle
  -- On the steps, from the end: in front of the site the run has not been behind it.
  have hkept : ∀ u, Reaches routine.code (routine.start sink) u → u.next ≤ n →
      u.registers.get? r = none := by
    intro u hu
    induction hu with
    | refl => exact fun _ => Registers.get?_empty _ _
    | tail _ hstep ih =>
      intro hun
      have hlt := hstep.lt hf
      obtain ⟨i, hi, hit⟩ := hstep
      have hne : i.dest? ≠ some r := fun hd =>
        absurd ((h.stands hlower).front_lt _ (by omega) i hi r hd) (Nat.not_lt.2 hle)
      rw [Step.get?_of_ne_dest ⟨i, hi, hit⟩ hi hne]
      exact ih (by omega)
  exact hkept t hr (Nat.le_of_eq hn)

/-! ## Passing a piece -/

/-- Code that leads forward and not out of itself is run through, if no instruction fails. -/
theorem leads_through {piece : List Instruction} {start : Nat} (hp : Placed code start piece)
    (hj : ∀ k i t, piece[k]? = some i → i.target? = some t →
      start + k < t ∧ t ≤ start + piece.length) (hle : start ≤ s.next)
    (hs : s.next ≤ start + piece.length) :
    Leads code (fun u => start ≤ u.next ∧ u.next < start + piece.length ∧ True) (fun _ _ => True)
      (fun t => t.next = start + piece.length ∧ True) s := by
  induction hm : start + piece.length - s.next using Nat.strong_induction_on generalizing s with
  | _ m ih =>
    rcases Nat.eq_or_lt_of_le hs with hend | hlt
    · exact .here ⟨hend, trivial⟩
    · obtain ⟨i, hget⟩ : ∃ i, piece[s.next - start]? = some i :=
        ⟨_, List.getElem?_eq_getElem (by omega)⟩
      have hi := hp _ _ hget
      rw [Nat.add_sub_cancel' hle] at hi
      refine .step hi ⟨hle, hlt, trivial⟩ (fun _ _ _ => trivial) fun t ht => ?_
      rcases Step.next ⟨_, hi, ht⟩ hi with hn | htarget
      · exact ih _ (by omega) (by omega) (by omega) rfl
      · obtain ⟨hlt', hle'⟩ := hj _ _ _ hget htarget
        exact ih _ (by omega) (by omega) hle' rfl

/-- A piece of code is run through, if no instruction fails, and has done what can be read off the
code. -/
theorem wp_through {α : Type} {x : Emit α}
    (hx : ∀ a, x s.next scope = .ok a → Grown A scope s.next scope a) :
    wp code (fun _ => True) (fun _ _ => True) x
      (fun _ after t => Ran A scope s after t) scope s := by
  have hthrough : wp code (fun _ => True) (fun _ _ => True) x (fun _ _ _ => True) scope s :=
    fun a ha hp => leads_through hp (hx a ha).jumps (Nat.le_refl _) (Nat.le_add_right _ _)
  exact wp_mono (wp_ran hx hthrough) fun _ _ _ _ h => h.2

theorem expr_through {e : Expr} (hA : e.AssignsOnly A) (hwf : scope.WF) :
    wp code (fun _ => True) (fun _ _ => True) (expr e)
      (fun o after t => Ran A scope s after t ∧ Resides scope e.alias? o after) scope s := by
  refine wp_mono (expr_ran hA hwf (wp_through fun a ha => (expr_grown hA hwf ha).1)) ?_
  rintro o after t _ ⟨_, hran, hres⟩
  exact ⟨hran, hres⟩

/-- A run that ends behind all code leaves every piece that it has come to. -/
theorem passes_of_end {α : Type} {x : Emit α} {Q : α → Scope → State → Prop} {a : Emitted α}
    (h : wp code (fun _ => True) (fun _ _ => True) x Q scope s) (hx : x s.next scope = .ok a)
    (hp : Placed code s.next a.code) (hr : Reaches code s t) (ht : code[t.next]? = none) :
    ∃ u, Reaches code s u ∧ Reaches code u t ∧ u.next = s.next + a.code.length ∧
      Q a.value a.scope u := by
  rcases (h a hx hp).passes hr with ⟨_, hsome⟩ | ⟨u, ⟨hn, hQ⟩, hsu, hut⟩
  · exact absurd ht hsome
  · exact ⟨u, hsu, hut, hn, hQ⟩

/-- Whatever a run that ends has passed leads to its end. -/
theorem reaches_end {u : State} (hu : Reaches code s u) (ht : Reaches code s t)
    (hend : code[t.next]? = none) : Reaches code u t := by
  have honly : Relator.RightUnique (Step code) := fun _ _ _ h g => h.unique g
  rcases Relation.ReflTransGen.total_of_right_unique honly hu ht with hut | htu
  · exact hut
  · obtain rfl := Reaches.eq_of_none htu hend
    exact .refl

end Lowering

end LineScript
