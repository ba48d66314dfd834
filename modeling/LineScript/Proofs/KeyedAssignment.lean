import LineScript.Proofs.Code.ElementStores
import LineScript.Proofs.OperandValues

/-!
# Assignments to elements

`a[i][j] = v` changes one element of `a`, that at the path of the values of `i` and `j`. The code
looks the keys up again at every level of the target, and `+=` and its like look them up once more
to read the old element. So this is what happens as long as all lookups find the same
(`Program.keyed_assignment`), in particular where the keys assign nothing. A key that assigns a
variable may have another value each time. Then the copy of one container is stored in the place of
another one: `key_computed_twice` is a program for which no keys at all give the value that the
variable has in the end.

`Assigns` follows a run through the code of an assignment. Which elements there are, and what they
are, is said by `Value.place?` and `Value.follow?`.
-/

set_option autoImplicit false

namespace LineScript

open State Emit

namespace Lowering

variable {code : List Instruction} {scope after : Scope} {s f final : State}

/-! ## Assignments in a run -/

/-- A run assigns to an element. An assignment computes the value and stores it. The others look the
element up, compute their operand, and store what the operation makes of the two. The indices are
the lookups in front of the store, the lookups in the store, what the register of the value held in
front of the store, and the value that was stored. -/
inductive Assigns (code : List Instruction) (base key value : Expr) :
    BinaryOp → Scope → State → List Lookup → List Lookup → Option Value → Value →
      Scope → State → Prop
  | assign {scope mid after : Scope} {s t f : State} {v : Operand} {lookups : List Lookup}
      {stored : Value} (hvalue : (expr value).Yields s.next scope v t.next mid)
      (hrun : Reaches code s t) (hstore : Stores code base key v mid t stored lookups after f) :
      Assigns code base key value .assign scope s [] lookups (t.registers.get? v.register)
        stored after f
  | update {op : Arith} {scope mid₁ mid₂ mid₃ mid₄ after : Scope} {s t₁ t₂ t₃ t₄ f : State}
      {c k o q v : Operand} {l : Lookup} {lookups : List Lookup}
      {old operand stored : Value} (hlook : LooksUp code base key scope s c k mid₁ t₁ l)
      (hget : (get c k).Yields t₁.next mid₁ o t₂.next mid₂)
      (hread : Reaches code t₁ t₂) (hat : l.container.at? l.key = some old)
      (hvalue : (expr value).Yields t₂.next mid₂ q t₃.next mid₃)
      (hrun : Reaches code t₂ t₃) (hoperand : t₃.registers.get? q.register = some operand)
      (harith : (arith op o q).Yields t₃.next mid₃ v t₄.next mid₄) (hcompute : Reaches code t₃ t₄)
      (hresult : old.bare.arith? op operand.bare = some stored.bare)
      (hstore : Stores code base key v mid₄ t₄ stored lookups after f) :
      Assigns code base key value (.update op) scope s [l] lookups (t₄.registers.get? v.register)
        stored after f

/-- All lookups of an assignment have found the same keys, each as many as it needs; and where the
element is stored, they have found the same variable. -/
structure Consistent (target : Expr) (earlier lookups : List Lookup) (root : Value)
    (keys : List Value) : Prop where
  length : keys.length = target.keys.length
  found : ∀ l ∈ earlier ++ lookups, l.keys <+: keys
  same : ∀ l ∈ lookups, l.root = root

theorem Assigns.stores {base key value : Expr} {op : BinaryOp} {earlier lookups : List Lookup}
    {held : Option Value} {stored : Value}
    (h : Assigns code base key value op scope s earlier lookups held stored after f) :
    ∃ v mid t, Stores code base key v mid t stored lookups after f := by
  cases h with
  | assign _ _ hstore => exact ⟨_, _, _, hstore⟩
  | update _ _ _ _ _ _ _ _ _ _ hstore => exact ⟨_, _, _, hstore⟩

theorem Assigns.lengths {base key value : Expr} {op : BinaryOp}
    {earlier lookups : List Lookup} {held : Option Value} {stored : Value}
    (h : Assigns code base key value op scope s earlier lookups held stored after f) :
    lookups.map (fun l => l.keys.length) =
      (List.range' 1 (Expr.element base key).keys.length).reverse := by
  obtain ⟨_, _, _, hstore⟩ := h.stores
  exact hstore.lengths

/-- What the variable at the root holds behind an assignment whose lookups have all found the same:
the stored value in the place of the element, and on the paths that part from that of the element
what was there before. -/
theorem Assigns.places {base key value : Expr} {op : BinaryOp} {earlier lookups : List Lookup}
    {held : Option Value} {stored root : Value} {keys : List Value}
    (h : Assigns code base key value op scope s earlier lookups held stored after f)
    (hc : Consistent (.element base key) earlier lookups root keys) :
    ∃ x b new, base.root? = some x ∧ after.find? x = some b ∧
      f.registers.get? b.register = some new ∧
      stored.place? root keys = some new ∧ new.follow? keys = some stored ∧
      ∀ others, Value.Apart keys others → new.follow? others = root.follow? others := by
  obtain ⟨v, mid, t, hstore⟩ := h.stores
  obtain ⟨x, b, new, hx, hb, hnew, hplace⟩ :=
    hstore.places hc.length fun l hl => ⟨hc.same l hl, hc.found l (List.mem_append_right _ hl)⟩
  exact ⟨x, b, new, hx, hb, hnew, hplace, Value.follow?_of_place? hplace,
    fun _ => Value.follow?_of_place?_of_apart hplace⟩

/-! ## Runs through assignments -/

variable {base key value : Expr} {a : Emitted Operand}

/-- The variables in keys. -/
def MentionedIn (keys : List Expr) (y : String) : Prop := ∃ k ∈ keys, Expr.ident y ∈ k.nodes

theorem onlyReads_of_assignmentFree {keys : List Expr} (h : ∀ k ∈ keys, k.AssignmentFree) :
    ∀ k ∈ keys, k.OnlyReads (MentionedIn keys) :=
  fun k hk => ⟨h k hk, fun _ hm _ hx => ⟨k, hk, hx ▸ hm⟩⟩

/-- What is known behind an arithmetic instruction: a new register holds the result. -/
theorem arith_passes {op : Arith} {o q : Operand} (hwf : scope.WF) :
    ends code (arith op o q) (fun v after t => (∃ old operand result,
      s.registers.get? o.register = some old ∧ s.registers.get? q.register = some operand ∧
        old.bare.arith? op operand.bare = some result.bare ∧
        t.registers.get? v.register = some result) ∧
      Ran (fun _ => False) scope s after t ∧ Resides scope none v after) scope s :=
  wp_resides hwf arith_grows <| arith_ends fun _ old operand result hold hoperand hresult =>
    ⟨old, operand, result, hold, hoperand, hresult, wrote_get?_self _ _ _⟩

/-- The value and the operation of `target op= value`, with the old element in a register that the
value's code leaves alone. -/
theorem arith_of_run {op : Arith} {o : Operand} {q v : Emitted Operand} {old : Value}
    (hwf : scope.WF) (howns : ¬ scope.Owns (· ∈ value.assigned) o.register)
    (hold : s.registers.get? o.register = some old) (hq : expr value s.next scope = .ok q)
    (hv : arith op o q.value (s.next + q.code.length) q.scope = .ok v)
    (hp : Placed code s.next (q.code ++ v.code)) (hr : Reaches code s final)
    (hend : code[final.next]? = none) :
    ∃ t u operand result, (expr value).Yields s.next scope q.value t.next q.scope ∧
      Reaches code s t ∧ t.registers.get? q.value.register = some operand ∧
      (arith op o q.value).Yields t.next q.scope v.value u.next v.scope ∧ Reaches code t u ∧
      Reaches code u final ∧ u.next = s.next + (q.code ++ v.code).length ∧
      old.bare.arith? op operand.bare = some result.bare ∧
      u.registers.get? v.value.register = some result ∧ Ran (· ∈ value.assigned) scope s v.scope u ∧
      Resides q.scope none v.value v.scope := by
  obtain ⟨t, hst, htf, ht, hran, _⟩ :=
    passes_of_end (expr_through value.assignsOnly_assigned hwf) hq hp.left hr hend
  have hbehind := hp.right
  rw [← ht] at hv hbehind
  obtain ⟨u, htu, huf, hu, ⟨old', operand, result, hold', hoperand, hresult, hget⟩, hran', hres⟩ :=
    passes_of_end (arith_passes hran.since.wf) hv hbehind htf hend
  obtain rfl : old = old' := Option.some.inj (((hran.kept howns).trans hold).symm.trans hold')
  exact ⟨t, u, operand, result, ⟨q.code, hq, ht⟩, hst, hoperand, ⟨v.code, hv, hu⟩, htu,
    huf, by rw [hu, ht, List.length_append, Nat.add_assoc], hresult, hget,
    hran.trans (hran'.mono fun _ hx => hx.elim), hres⟩

/-- A run to the end that comes to the code of `target = value` carries it out. -/
theorem assigns_of_run (hwf : scope.WF) (hvacant : Vacant scope s)
    (h : expr (.binary (.element base key) .assign value) s.next scope = .ok a)
    (hp : Placed code s.next a.code) (hr : Reaches code s final) (hend : code[final.next]? = none) :
    ∃ lookups held stored after f, Assigns code base key value .assign scope s [] lookups
      held stored after f ∧ Reaches code s f ∧ (value.alias? = none → held = some stored) ∧
      ((∀ k ∈ (Expr.element base key).keys, k.AssignmentFree) →
        held = some stored ∧ ∃ root keys, Consistent (.element base key) [] lookups root keys) := by
  obtain ⟨v, c, hv, hc, hcode⟩ := assign_factors h
  rw [hcode] at hp
  obtain ⟨t, hst, htf, ht, hran, hres⟩ :=
    passes_of_end (expr_through value.assignsOnly_true hwf) hv hp.left hr hend
  have hbehind := hp.right
  rw [← ht] at hc hbehind
  have hmid := hran.since.wf
  obtain ⟨w, hsees⟩ :=
    Sees.exists (A := MentionedIn (Expr.element base key).keys) hmid (hvacant.ran hran _)
  obtain ⟨stored, lookups, f, hstore, htf', _, hkept, hfree⟩ :=
    stores_of_run (w := w) (B := MentionedIn (Expr.element base key).keys) hmid hc hbehind htf hend
  refine ⟨lookups, _, stored, c.scope, f, .assign ⟨v.code, hv, ht⟩ hst hstore, hst.trans htf',
    fun halias => ?_, fun hkeys => ?_⟩
  · exact hkept (hres.not_owns hmid fun _ hx => by rw [halias] at hx; cases hx)
  · obtain ⟨hheld, root, keys, hread, hsame⟩ :=
      hfree (onlyReads_of_assignmentFree hkeys) hsees hres.lt
    exact ⟨hheld, root, keys, Expr.length_of_evalAll hread.evaluated, fun l hl => (hsame l hl).2,
      fun l hl => (hsame l hl).1⟩

/-- A run to the end that comes to the code of `target op= value` carries it out. -/
theorem updates_of_run {op : Arith} (hwf : scope.WF) (hvacant : Vacant scope s)
    (h : expr (.binary (.element base key) (.update op) value) s.next scope = .ok a)
    (hp : Placed code s.next a.code) (hr : Reaches code s final) (hend : code[final.next]? = none) :
    ∃ l lookups stored after f,
      Assigns code base key value (.update op) scope s [l] lookups (some stored) stored after f ∧
        Reaches code s f ∧
        ((∀ k ∈ (Expr.element base key).keys, k.AssignmentFree) →
          (∀ k ∈ (Expr.element base key).keys, ∀ y ∈ value.assigned, Expr.ident y ∉ k.nodes) →
          ∃ root keys, Consistent (.element base key) [l] lookups root keys) := by
  obtain ⟨current, operand, v, c, hcurrent, hoperand, hv, hc, hcode⟩ := update_factors h
  obtain ⟨x, hroot⟩ := root_of_store hc
  obtain ⟨pair, got, hpair, hgot, rfl⟩ := bind_eq_ok (expr_factors hcurrent)
  simp only [List.append_assoc] at hcode
  rw [hcode] at hp
  obtain ⟨w, hsees⟩ := Sees.exists (A := MentionedIn (Expr.element base key).keys) hwf (hvacant _)
  -- The old element.
  obtain ⟨container, k, t₁, hck, hst₁, ht₁f, ht₁, hfound⟩ :=
    looksUp_of_run (B := MentionedIn (Expr.element base key).keys) (w := w) hroot hwf hpair
      hp.left hr hend
  have hrest := hp.right
  rw [hck, ← ht₁] at hgot
  rw [← ht₁] at hrest
  obtain ⟨l, old, t₂, hlookup, hat, ht₁t₂, ht₂f, ht₂, hold, hran₂, hres₂, hsame⟩ :=
    hfound.get_of_run hgot hrest.left ht₁f hend
  have hn₂ : t₂.next = s.next + (pair.code ++ got.code).length := by
    rw [ht₂, ht₁, List.length_append, Nat.add_assoc]
  -- The new element.
  have hrest := hrest.right
  rw [← List.append_assoc, ← ht₂] at hrest
  rw [← hn₂] at hoperand
  have hindex : s.next + ((pair.code ++ got.code) ++ operand.code).length =
      t₂.next + operand.code.length := by
    rw [hn₂, List.length_append, Nat.add_assoc]
  rw [hindex] at hv
  obtain ⟨t₃, t₄, u, result, hoperand', ht₂t₃, hu, hv', ht₃t₄, ht₄f, ht₄, hresult, hget,
      hran₄, hres₄⟩ :=
    arith_of_run hran₂.since.wf (hres₂.not_owns hran₂.since.wf fun _ hx => nomatch hx) hold hoperand
      hv hrest.left ht₂f hend
  -- The store.
  have hmid₄ := hran₄.since.wf
  have hbehind := hrest.right
  rw [← ht₄] at hbehind
  have hn₄ : t₄.next = s.next + (((pair.code ++ got.code) ++ operand.code) ++ v.code).length := by
    rw [ht₄, List.length_append, List.length_append, ← Nat.add_assoc, ← hindex, Nat.add_assoc]
  rw [← hn₄] at hc
  obtain ⟨stored, lookups, f, hstore, ht₄f', _, hstored, hfree⟩ :=
    stores_of_run (w := w) (B := MentionedIn (Expr.element base key).keys) hmid₄ hc
      hbehind ht₄f hend
  have hheld := hstored (hres₄.not_owns hmid₄ fun _ hx => nomatch hx)
  obtain rfl : result = stored := Option.some.inj (hget.symm.trans hheld)
  have hassigns := Assigns.update hlookup ⟨got.code, hgot, ht₂⟩ ht₁t₂ hat hoperand' ht₂t₃ hu hv'
    ht₃t₄ hresult hstore
  rw [hheld] at hassigns
  refine ⟨l, lookups, result, c.scope, f, hassigns,
    hst₁.trans (ht₁t₂.trans (ht₂t₃.trans (ht₃t₄.trans ht₄f'))), fun hkeys hvalue => ?_⟩
  have hreads := onlyReads_of_assignmentFree hkeys
  have hapart : ∀ y, MentionedIn (Expr.element base key).keys y → y ∉ value.assigned :=
    fun y ⟨k, hk, hy⟩ hassigned => hvalue k hk y hassigned hy
  obtain ⟨hfree₂, hread⟩ := hsame hreads hsees
  have hsees₄ := (hsees.ran hfree₂).ran_of_apart hran₄ hapart
  obtain ⟨_, root, keys, hread', hsame'⟩ := hfree hreads hsees₄ hres₄.lt
  obtain ⟨rfl, _⟩ := Prod.mk.inj (Option.some.inj (hread.evaluated.symm.trans hread'.evaluated))
  refine ⟨root, l.keys, hlookup.length, fun l' hl' => ?_, fun l' hl' => (hsame' l' hl').1⟩
  rcases List.mem_cons.1 hl' with rfl | hl'
  · exact List.prefix_refl _
  · exact (hsame' l' hl').2

end Lowering

namespace Program

open Lowering

/-- **Assignments to elements.** Every assignment to an element in a program that lowers is put
somewhere. Wherever a run that ends without an error comes to its code, it carries the assignment
out. It looks up all keys of the target, then all but the last one and so on, and once more all of
them for the old element, if this is used. The value that is stored is the one that was computed,
unless it lies in a variable, which a key may assign.

If all lookups find the same, the variable holds its old value with the stored value at the path of
the keys, and everything off this path is what it was. They do so if the keys assign nothing; where
the old element is used, the value must not assign a variable in a key either. -/
theorem keyed_assignment (p : Program) (routine : Routine) (limit : Option Nat)
    (sink : Sink) (registers : Registers) (hlower : p.lower = .ok routine)
    (hrun : (routine.run limit sink).result = .ok registers) :
    ∀ st ∈ p, ∀ base key op value, Expr.binary (.element base key) op value ∈ st.expr.nodes →
      op.isAssignment = true →
      (∃ n scope, Site p (.value (.binary (.element base key) op value)) n scope) ∧
      ∀ scope s, Site p (.value (.binary (.element base key) op value)) s.next scope →
        Reaches routine.code (routine.start sink) s →
        ∃ earlier lookups held stored after f,
        Assigns routine.code base key value op scope s earlier lookups held stored after f ∧
          Reaches routine.code s f ∧ lookups.map (fun l => l.keys.length) =
            (List.range' 1 (Expr.element base key).keys.length).reverse ∧
          ((op = .assign → value.alias? = none) → held = some stored) ∧
          (∀ root keys, Consistent (.element base key) earlier lookups root keys →
            ∃ x b new, base.root? = some x ∧ after.find? x = some b ∧
              f.registers.get? b.register = some new ∧
              stored.place? root keys = some new ∧ new.follow? keys = some stored ∧
              ∀ others, Value.Apart keys others → new.follow? others = root.follow? others) ∧
          ((∀ k ∈ (Expr.element base key).keys, k.AssignmentFree) → (op ≠ .assign →
            ∀ k ∈ (Expr.element base key).keys, ∀ y ∈ value.assigned, Expr.ident y ∉ k.nodes) →
            held = some stored ∧
            ∃ root keys, Consistent (.element base key) earlier lookups root keys) := by
  intro st hst base key op value hnode hop
  have hoperation : (Expr.binary (.element base key) op value).isOperation = true := by
    cases op with
    | assign => rfl
    | update op => rfl
    | _ => cases hop
  obtain ⟨earlier, later, hp⟩ := List.append_of_mem hst
  constructor
  · obtain ⟨before, _, _, hbefore, _⟩ := code_of_statement (hp ▸ hlower)
    exact Site.of_operation hlower (.statement hp hbefore) rfl hnode hoperation
  · intro scope s hsite hs
    obtain ⟨final, hfinal, hend, _⟩ := Routine.run_ok hrun
    obtain ⟨a, ha, hplaced⟩ := hsite.placed_expr hlower
    have hvacant : Vacant scope s := hsite.vacant hlower hs rfl
    have hsf := reaches_end hs hfinal hend
    cases op with
    | assign =>
      obtain ⟨lookups, held, stored, after, f, hassigns, hf, hheld, hfree⟩ :=
        assigns_of_run hsite.wf hvacant ha hplaced hsf hend
      exact ⟨[], lookups, held, stored, after, f, hassigns, hf, hassigns.lengths,
        fun h => hheld (h rfl), fun _ _ => hassigns.places, fun hkeys _ => hfree hkeys⟩
    | update op =>
      obtain ⟨l, lookups, stored, after, f, hassigns, hf, hfree⟩ :=
        updates_of_run hsite.wf hvacant ha hplaced hsf hend
      exact ⟨[l], lookups, some stored, stored, after, f, hassigns, hf,
        hassigns.lengths, fun _ => rfl,
        fun _ _ => hassigns.places, fun hkeys hvalue => ⟨rfl, hfree hkeys (hvalue (by simp))⟩⟩
    | _ => cases hop

/-- A number as an expression. -/
def whole (n : Int) : Expr := .literal (.number ⟨n, 0⟩)

/-- `a = [[1, 2], [3, 4]]`, `i = 0` -/
def makesGrid : Program :=
  [⟨.binary (.ident "a") .assign (.array [.array [whole 1, whole 2], .array [whole 3, whole 4]]),
    default⟩, ⟨.binary (.ident "i") .assign (whole 0), default⟩]

/-- The code of `makesGrid`. -/
def makesGridCode : List Instruction :=
  [.load (.number ⟨1, 0⟩) 0, .load (.number ⟨2, 0⟩) 1, .makeArray .number [0, 1] 2,
    .load (.number ⟨3, 0⟩) 3, .load (.number ⟨4, 0⟩) 4, .makeArray .number [3, 4] 5,
    .makeArray (.array .number) [2, 5] 6, .copy 6 7, .load (.number ⟨0, 0⟩) 8, .copy 8 9]

/-- The scope behind `makesGrid`. -/
def makesGridScope : Scope :=
  ⟨10, [("i", ⟨9, some .number⟩), ("a", ⟨7, some (.array (.array .number))⟩)]⟩

/-- The state behind `makesGrid`. -/
def makesGridState (routine : Routine) : State :=
  (State.runFor routine.code 10 (routine.start (.new none))).1

/-- A row of two numbers. -/
def row (m n : Int) : Value := .array .number [.number ⟨m, 0⟩, .number ⟨n, 0⟩]

/-- Two rows. -/
def rows (first second : Value) : Value := .array (.array .number) [first, second]

theorem makesGrid_statements :
    statements 0 .empty makesGrid = .ok ⟨(), makesGridCode, makesGridScope⟩ := by cbv

/-- `a[i][0] += (j = 5)` -/
def addsToElement : Expr :=
  .binary (.element (.element (.ident "a") (.ident "i")) (whole 0)) (.update .add)
    (.group (.binary (.ident "j") .assign (whole 5)))

/-- `a = [[1, 2], [3, 4]]`, `i = 0`, `a[i][0] += (j = 5)` -/
def addsToGrid : Program := makesGrid ++ [⟨addsToElement, default⟩]

/-- The code of `addsToGrid`. -/
def addsToGridRoutine : Routine :=
  ⟨makesGridCode ++ [.getItem 7 9 10, .load (.number ⟨0, 0⟩) 11, .getItem 10 11 12,
    .load (.number ⟨5, 0⟩) 13, .copy 13 14, .arith .add 12 13 15, .getItem 7 9 16,
    .load (.number ⟨0, 0⟩) 17, .setItem 16 17 15, .setItem 7 9 16], 18⟩

theorem addsToGrid_lower : addsToGrid.lower = .ok addsToGridRoutine := by cbv

/-- The keys `i` and `0` assign nothing, and the value assigns another variable. So the sum lies at
their path in the end. -/
theorem keyed_assignment_addsToGrid :
    ∃ registers root keys earlier lookups stored after f, addsToGrid.lower = .ok addsToGridRoutine ∧
      (addsToGridRoutine.run none (.new none)).result = .ok registers ∧
      Assigns addsToGridRoutine.code (.element (.ident "a") (.ident "i")) (whole 0)
        (.group (.binary (.ident "j") .assign (whole 5))) (.update .add) makesGridScope
        (makesGridState addsToGridRoutine) earlier lookups (some stored) stored after f ∧
      ∃ x b new, Expr.root? (.element (.ident "a") (.ident "i")) = some x ∧ after.find? x = some b ∧
        f.registers.get? b.register = some new ∧ stored.place? root keys = some new ∧
        new.follow? keys = some stored ∧
        ∀ others, Value.Apart keys others → new.follow? others = root.follow? others := by
  have hrun : State.runFor addsToGridRoutine.code 10 (addsToGridRoutine.start (.new none)) =
      (makesGridState addsToGridRoutine, .stopped) := rfl
  have hprogram : addsToGrid = makesGrid ++ [⟨addsToElement, default⟩] := rfl
  have hassignment :=
    keyed_assignment addsToGrid addsToGridRoutine none (.new none) _ addsToGrid_lower rfl
      ⟨addsToElement, default⟩ (by simp [addsToGrid])
      (.element (.ident "a") (.ident "i")) (whole 0) (.update .add)
      (.group (.binary (.ident "j") .assign (whole 5))) (by simp [addsToElement, Expr.nodes]) rfl
  obtain ⟨earlier, lookups, held, stored, after, f, hassigns, _, _, _, hplaces, hfree⟩ :=
    hassignment.2 makesGridScope (makesGridState addsToGridRoutine)
      (.statement hprogram makesGrid_statements)
      (State.runFor_spec hrun)
  obtain ⟨rfl, root, keys, hconsistent⟩ := hfree
    (by simp [Expr.keys, whole, Expr.AssignmentFree, Expr.All, Expr.nodes, Expr.parts,
          Expr.isAssignment])
    (by simp [Expr.keys, whole, Expr.assigned, Expr.nodes, Expr.parts, BinaryOp.isAssignment,
          Expr.root?])
  exact ⟨_, root, keys, earlier, lookups, stored, after, f, addsToGrid_lower, rfl, hassigns,
    hplaces root keys hconsistent⟩

/-- `a[i = 1 - i][0] = 9` -/
def flipsKey : Expr :=
  .binary (.element (.element (.ident "a")
    (.binary (.ident "i") .assign (.binary (whole 1) (.arith .subtract) (.ident "i")))) (whole 0))
    .assign (whole 9)

/-- `a = [[1, 2], [3, 4]]`, `i = 0`, `a[i = 1 - i][0] = 9` -/
def flipsGrid : Program := makesGrid ++ [⟨flipsKey, default⟩]

/-- The code of `flipsGrid`. -/
def flipsGridRoutine : Routine :=
  ⟨makesGridCode ++ [.load (.number ⟨9, 0⟩) 10, .load (.number ⟨1, 0⟩) 11,
    .arith .subtract 11 9 12, .copy 12 9,
    .getItem 7 12 13, .load (.number ⟨0, 0⟩) 14, .setItem 13 14 10, .load (.number ⟨1, 0⟩) 15,
    .arith .subtract 15 9 16, .copy 16 9, .setItem 7 16 13], 17⟩

theorem flipsGrid_lower : flipsGrid.lower = .ok flipsGridRoutine := by cbv

/-- No one element of the first grid can be replaced to give the second one, for the first rows
differ in both. -/
theorem two_elements_differ (first second stored : Value) :
    stored.place? (rows (row 1 2) (row 3 4)) [first, second] ≠ some (rows (row 9 4) (row 3 4)) := by
  intro h
  have hoff : ∀ others, Value.Apart [first, second] others →
      (rows (row 9 4) (row 3 4)).follow? others = (rows (row 1 2) (row 3 4)).follow? others :=
    fun _ => Value.follow?_of_place?_of_apart h
  by_cases hzero : second.key = (Value.number ⟨0, 0⟩).key
  · have hsame := hoff [.number ⟨0, 0⟩, .number ⟨1, 0⟩] (Or.inr (Or.inl (by rw [hzero]; decide)))
    cases hsame
  · have hsame := hoff [.number ⟨0, 0⟩, .number ⟨0, 0⟩] (Or.inr (Or.inl hzero))
    cases hsame

/-- The key is computed twice, first as 1 and then as 0. The second row is read and changed, and
stored as the first one. No keys at all lead to what `a` holds in the end. -/
theorem key_computed_twice :
    ∃ registers a i, flipsGrid.lower = .ok flipsGridRoutine ∧
      (flipsGridRoutine.run none (.new none)).result = .ok registers ∧
      Site flipsGrid (.value flipsKey) (makesGridState flipsGridRoutine).next makesGridScope ∧
      Reaches flipsGridRoutine.code (flipsGridRoutine.start (.new none))
        (makesGridState flipsGridRoutine) ∧
      makesGridScope.find? "a" = some a ∧ makesGridScope.find? "i" = some i ∧
      (makesGridState flipsGridRoutine).registers.get? a.register =
        some (rows (row 1 2) (row 3 4)) ∧ registers.get? i.register = some (.number ⟨0, 0⟩) ∧
      registers.get? a.register = some (rows (row 9 4) (row 3 4)) ∧
      ∀ first second stored : Value, stored.place? (rows (row 1 2) (row 3 4)) [first, second] ≠
        some (rows (row 9 4) (row 3 4)) := by
  have hrun : State.runFor flipsGridRoutine.code 10 (flipsGridRoutine.start (.new none)) =
      (makesGridState flipsGridRoutine, .stopped) := rfl
  have hprogram : flipsGrid = makesGrid ++ [⟨flipsKey, default⟩] := rfl
  exact ⟨_, ⟨7, some (.array (.array .number))⟩, ⟨9, some .number⟩, flipsGrid_lower, rfl,
    .statement hprogram makesGrid_statements, State.runFor_spec hrun, rfl, rfl, rfl, rfl, rfl,
    two_elements_differ⟩

end Program

end LineScript
