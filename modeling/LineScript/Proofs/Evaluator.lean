import LineScript.Proofs.Expr.Nodes
import LineScript.Proofs.Value.Bare

/-!
# The reference evaluator

What a program means, without registers or code. `Expr.eval` walks an expression from left to right
over a `World`, which is the values of the variables and the text printed so far. Containers carry
no element kind here (`any` throughout), and no operation depends on what is known in advance: `+`
looks at the values it is given, and so does indexing.

An expression yields a value or, if it is a call of `print`, nothing; using that nothing is an
error. The evaluator does not tell errors apart, it has no result.

`Expr.eval_pure` is what makes evaluation twice the same as evaluation once: an expression without
assignments that yields a value leaves the world as it was.
-/

set_option autoImplicit false

namespace LineScript

/-- The values of the variables, and what was printed. -/
structure World where
  vars : String → Option Value
  output : String

namespace World

/-- No variables, nothing printed. -/
def initial : World := ⟨fun _ => none, ""⟩

/-- Gives a variable a value. -/
def set (w : World) (name : String) (v : Value) : World :=
  { w with vars := fun x => if x = name then some v else w.vars x }

end World

/-! ## Operations on values -/

namespace Value

/-- The element under a key: an array is indexed by a whole number, a map by the text of the key. -/
def at? (container key : Value) : Option Value :=
  match container, key with
  | .array _ items, .number n => n.toIndex?.bind fun i => items[i]?
  | .map _ entries, key => Entries.get? key.key entries
  | _, _ => none

/-- The container with another element under a key. A map may get a new key, an array no new
index. -/
def put? (container key v : Value) : Option Value :=
  match container, key with
  | .array _ items, .number n =>
    n.toIndex?.bind fun i => if i < items.length then some (.array .any (items.set i v)) else none
  | .map _ entries, key => some (.map .any (Entries.insert key.key v entries))
  | _, _ => none

/-- The element at the end of a path of keys. -/
def follow? (root : Value) : List Value → Option Value
  | [] => some root
  | key :: rest => (root.at? key).bind fun inner => inner.follow? rest

/-- The value with `v` at the end of a path of keys. -/
def update? (v root : Value) : List Value → Option Value
  | [] => some v
  | [key] => root.put? key v
  | key :: next :: rest =>
    (root.at? key).bind
      fun inner => (update? v inner (next :: rest)).bind fun new => root.put? key new

/-- An arithmetic operation; addition also joins strings and data. -/
def arith? (op : Arith) (a b : Value) : Option Value :=
  match op, a, b with
  | .add, .data a, .data b => some (.data (a ++ b))
  | .add, .string a, .string b => some (.string (a ++ b))
  | op, .number a, .number b => (op.apply a b).toOption.map .number
  | _, _, _ => none

/-- A negation. -/
def negation? (op : UnaryOp) (a : Value) : Option Value :=
  match op, a with
  | .not, a => some (.bool (!a.isTrue))
  | .negate, .number n => n.neg.toOption.map .number
  | .negate, _ => none

end Value

/-! ## Expressions -/

/-- An evaluation: it changes the world and yields a result, or it has none. -/
abbrev Eval (α : Type) : Type := StateT World Option α

namespace Eval

variable {α β : Type}

/-- A result that may be missing. -/
def of (x : Option α) : Eval α := fun w => x.map fun a => (a, w)

def lookup (name : String) : Eval Value := fun w => (w.vars name).map fun v => (v, w)

def set (name : String) (v : Value) : Eval Unit := fun w => some ((), w.set name v)

def print (line : String) : Eval Unit := fun w => some ((), { w with output := w.output ++ line })

/-- The value of an expression that has to have one. -/
def value (x : Eval (Option Value)) : Eval Value := x >>= of

/-- The value that a path of keys leads to from a variable. -/
def read (name : String) (keys : List Value) : Eval Value := do
  let root ← lookup name
  of (root.follow? keys)

/-- Replaces a variable, or the part of its value that a path of keys leads to. -/
def assign (name : String) (keys : List Value) (v : Value) : Eval Unit :=
  match keys with
  | [] => set name v
  | key :: rest => do
    let root ← lookup name
    let new ← of (v.update? root (key :: rest))
    set name new

/-- A call with given arguments. -/
def call (name : String) (values : List Value) : Eval (Option Value) :=
  if name = "print" then do
    print (printedLine values)
    pure none
  else
    match name, values with
    | "len", [container] => do
      let size ← of container.size.toOption
      pure (some (.number (.ofNat size)))
    | _, _ => of none

end Eval

namespace Expr

mutual

/-- The value of an expression, if it yields one. -/
def eval : Expr → Eval (Option Value)
  | .literal v => pure (some v.bare)
  | .ident name => do
    let v ← Eval.lookup name
    pure (some v)
  | .group inner => eval inner
  | .array items => do
    let values ← evalAll items
    pure (some (.array .any values))
  | .map entries => do
    let pairs ← evalEntries entries
    pure (some (.map .any (Entries.ofList pairs)))
  | .element base key => do
    let container ← Eval.value (eval base)
    let key ← Eval.value (eval key)
    let v ← Eval.of (container.at? key)
    pure (some v)
  | .call name args => do
    let values ← evalAll args
    Eval.call name values
  | .unary op operand => do
    let v ← Eval.value (eval operand)
    let v ← Eval.of (v.negation? op)
    pure (some v)
  | .binary left (.arith op) right => do
    let a ← Eval.value (eval left)
    let b ← Eval.value (eval right)
    let v ← Eval.of (a.arith? op b)
    pure (some v)
  | .binary left (.relation op) right => do
    let a ← Eval.value (eval left)
    let b ← Eval.value (eval right)
    let holds ← Eval.of (op.apply a b).toOption
    pure (some (.bool holds))
  | .binary left .and right => do
    let a ← Eval.value (eval left)
    if a.isTrue then do
      let b ← Eval.value (eval right)
      pure (some b)
    else
      pure (some a)
  | .binary left .or right => do
    let a ← Eval.value (eval left)
    if a.isTrue then
      pure (some a)
    else do
      let b ← Eval.value (eval right)
      pure (some b)
  | .binary target .assign value => do
    let v ← Eval.value (eval value)
    let (name, keys) ← path target
    Eval.assign name keys v
    pure (some v)
  | .binary target (.update op) value => do
    let (name, keys) ← path target
    let old ← Eval.read name keys
    let v ← Eval.value (eval value)
    let new ← Eval.of (old.arith? op v)
    Eval.assign name keys new
    pure (some new)

/-- The values of expressions, one after the other. -/
def evalAll : List Expr → Eval (List Value)
  | [] => pure []
  | e :: rest => do
    let v ← Eval.value (eval e)
    let values ← evalAll rest
    pure (v :: values)

/-- The entries of a map, keys as texts. -/
def evalEntries : List (Expr × Expr) → Eval (List (String × Value))
  | [] => pure []
  | (key, value) :: rest => do
    let k ← Eval.value (eval key)
    let v ← Eval.value (eval value)
    let pairs ← evalEntries rest
    pure ((k.key, v) :: pairs)

/-- The variable at the root of a target of an assignment, and the keys that lead on from there. -/
def path : Expr → Eval (String × List Value)
  | .ident name => pure (name, [])
  | .element base key => do
    let (name, keys) ← path base
    let key ← Eval.value (eval key)
    pure (name, keys ++ [key])
  | _ => Eval.of none

end

end Expr

/-! ## Evaluations that have a result -/

namespace Eval

variable {α β : Type} {w w' : World}

@[simp]
theorem bind_eq_some_iff {x : Eval α} {f : α → Eval β} {r : β × World} :
    (x >>= f) w = some r ↔ ∃ a w₁, x w = some (a, w₁) ∧ f a w₁ = some r := by
  change (x w).bind (fun p => f p.1 p.2) = some r ↔ _
  simp [Option.bind_eq_some_iff]

@[simp]
theorem pure_eq_some_iff {a : α} {r : α × World} : (pure a : Eval α) w = some r ↔ r = (a, w) := by
  change some (a, w) = some r ↔ _
  simp [eq_comm]

@[simp]
theorem of_eq_some_iff {x : Option α} {r : α × World} :
    of x w = some r ↔ x = some r.1 ∧ r.2 = w := by
  obtain ⟨a, w₁⟩ := r
  cases x <;> simp [of, eq_comm]

@[simp]
theorem lookup_eq_some_iff {name : String} {r : Value × World} :
    lookup name w = some r ↔ w.vars name = some r.1 ∧ r.2 = w := by
  obtain ⟨v, w₁⟩ := r
  cases h : w.vars name <;> simp [lookup, h, eq_comm]

@[simp]
theorem print_eq_some_iff {line : String} {r : Unit × World} :
    print line w = some r ↔ r = ((), { w with output := w.output ++ line }) := by
  simp [print, eq_comm]

@[simp]
theorem set_eq_some_iff {name : String} {v : Value} {r : Unit × World} :
    set name v w = some r ↔ r = ((), w.set name v) := by
  simp [set, eq_comm]

@[simp]
theorem value_eq_some_iff {x : Eval (Option Value)} {v : Value} :
    value x w = some (v, w') ↔ x w = some (some v, w') := by
  simp only [value, bind_eq_some_iff, of_eq_some_iff]
  constructor
  · rintro ⟨a, w₁, hx, rfl, rfl⟩
    exact hx
  · intro hx
    exact ⟨_, _, hx, rfl, rfl⟩

/-- A call that yields a value prints nothing. -/
theorem call_pure {name : String} {values : List Value} {v : Value}
    (h : call name values w = some (some v, w')) : w' = w := by
  unfold call at h
  split at h
  · simp only [bind_eq_some_iff, pure_eq_some_iff, Prod.mk.injEq, reduceCtorEq, false_and,
      and_false, exists_false] at h
  · split at h
    · simp only [bind_eq_some_iff, of_eq_some_iff, pure_eq_some_iff, Prod.mk.injEq] at h
      obtain ⟨_, _, ⟨_, rfl⟩, _, rfl⟩ := h
      rfl
    · simp at h

end Eval

namespace Value

theorem follow?_concat (root : Value) (keys : List Value) (key : Value) :
    root.follow? (keys ++ [key]) = (root.follow? keys).bind fun c => c.at? key := by
  induction keys generalizing root with
  | nil => cases h : root.at? key <;> simp [follow?, h]
  | cons first rest ih =>
    cases h : root.at? first with
    | none => simp [follow?, h]
    | some inner => simp [follow?, h, ih]

/-- A store at the end of a path, from the inside out: the container there is updated and then
stored at its own place. -/
theorem update?_concat (v root : Value) (keys : List Value) (key : Value) :
    v.update? root (keys ++ [key]) =
      (root.follow? keys).bind fun c => (c.put? key v).bind fun new => new.update? root keys := by
  -- On the path: the root is updated by what the rest of the path makes of its element.
  induction keys generalizing root with
  | nil => cases h : root.put? key v <;> simp [follow?, update?, h]
  | cons first rest ih =>
    -- The path has two keys at least, so both sides begin by going into the element under the
    -- first.
    have hlong : v.update? root (first :: rest ++ [key]) =
        (root.at? first).bind fun inner =>
          (v.update? inner (rest ++ [key])).bind fun new => root.put? first new := by
      cases rest <;> rfl
    rw [hlong]
    cases hat : root.at? first with
    | none => simp [follow?, hat]
    | some inner =>
      have hstep : ∀ new : Value, new.update? root (first :: rest) =
          (new.update? inner rest).bind fun new => root.put? first new := by
        intro new
        cases rest <;> simp [update?, hat]
      simp only [follow?, hat, Option.bind_some, ih, hstep, Option.bind_assoc]

end Value

namespace Eval

variable {w w₁ : World} {name : String} {root : Value}

theorem assign_eq_some_iff {keys : List Value} {v : Value} (hvar : w.vars name = some root) :
    assign name keys v w = some ((), w₁) ↔
      ∃ new, v.update? root keys = some new ∧ w₁ = w.set name new := by
  cases keys with
  | nil => simp [assign, Value.update?]
  | cons key rest =>
    simp only [assign, bind_eq_some_iff, lookup_eq_some_iff, of_eq_some_iff, set_eq_some_iff,
      Prod.mk.injEq, true_and]
    constructor
    · rintro ⟨r, _, ⟨hr, rfl⟩, new, _, ⟨hnew, rfl⟩, hw⟩
      obtain rfl : root = r := Option.some.inj (hvar.symm.trans hr)
      exact ⟨new, hnew, hw⟩
    · rintro ⟨new, hnew, hw⟩
      exact ⟨root, w, ⟨hvar, rfl⟩, new, w, ⟨hnew, rfl⟩, hw⟩

/-- To store at the end of a path, update the container there and store it at its own place. -/
theorem assign_concat {keys : List Value} {key c v new : Value} (hvar : w.vars name = some root)
    (hfollow : root.follow? keys = some c) (hput : c.put? key v = some new)
    (h : assign name keys new w = some ((), w₁)) :
    assign name (keys ++ [key]) v w = some ((), w₁) := by
  obtain ⟨last, hlast, hw⟩ := (assign_eq_some_iff hvar).1 h
  refine (assign_eq_some_iff hvar).2 ⟨last, ?_, hw⟩
  rw [Value.update?_concat, hfollow, Option.bind_some, hput, Option.bind_some, hlast]

end Eval

namespace Expr

attribute [local simp] eval evalAll evalEntries

/-- Parentheses change nothing. -/
theorem eval_group (inner : Expr) : (Expr.group inner).eval = inner.eval := by simp

variable {w w' : World}

theorem evalAll_cons_eq_some_iff {e : Expr} {rest : List Expr} {values : List Value} :
    evalAll (e :: rest) w = some (values, w') ↔
      ∃ v vs w₁, e.eval w = some (some v, w₁) ∧ evalAll rest w₁ = some (vs, w') ∧
        values = v :: vs := by
  simp only [evalAll, Eval.bind_eq_some_iff, Eval.value_eq_some_iff, Eval.pure_eq_some_iff,
    Prod.mk.injEq]
  constructor
  · rintro ⟨v, w₁, hv, vs, _, hvs, rfl, rfl⟩
    exact ⟨v, vs, w₁, hv, hvs, rfl⟩
  · rintro ⟨v, vs, w₁, hv, hvs, rfl⟩
    exact ⟨v, w₁, hv, vs, w', hvs, rfl, rfl⟩

theorem evalAll_concat_eq_some_iff {es : List Expr} {e : Expr} {values : List Value} :
    evalAll (es ++ [e]) w = some (values, w') ↔
      ∃ vs v w₁, evalAll es w = some (vs, w₁) ∧ e.eval w₁ = some (some v, w') ∧
        values = vs ++ [v] := by
  induction es generalizing w values with
  | nil =>
    rw [List.nil_append, evalAll_cons_eq_some_iff]
    simp only [evalAll, Eval.pure_eq_some_iff, Prod.mk.injEq]
    constructor
    · rintro ⟨v, vs, w₁, hv, ⟨rfl, rfl⟩, rfl⟩
      exact ⟨[], v, w, ⟨rfl, rfl⟩, hv, rfl⟩
    · rintro ⟨vs, v, w₁, ⟨rfl, rfl⟩, hv, rfl⟩
      exact ⟨v, [], w', hv, ⟨rfl, rfl⟩, rfl⟩
  | cons f rest ih =>
    rw [List.cons_append, evalAll_cons_eq_some_iff]
    constructor
    · rintro ⟨u, us, w₁, hu, hus, rfl⟩
      obtain ⟨vs, v, w₂, hvs, hv, rfl⟩ := ih.1 hus
      exact ⟨u :: vs, v, w₂, evalAll_cons_eq_some_iff.2 ⟨u, vs, w₁, hu, hvs, rfl⟩, hv, rfl⟩
    · rintro ⟨vs, v, w₂, hvs, hv, rfl⟩
      obtain ⟨u, us, w₁, hu, hus, rfl⟩ := evalAll_cons_eq_some_iff.1 hvs
      exact ⟨u, us ++ [v], w₁, hu, ih.2 ⟨us, v, w₂, hus, hv, rfl⟩, rfl⟩

theorem length_of_evalAll {es : List Expr} {values : List Value}
    (h : evalAll es w = some (values, w')) : values.length = es.length := by
  induction es generalizing w values with
  | nil =>
    simp only [evalAll, Eval.pure_eq_some_iff, Prod.mk.injEq] at h
    rw [h.1]
    rfl
  | cons e rest ih =>
    obtain ⟨v, vs, w₁, _, hrest, rfl⟩ := evalAll_cons_eq_some_iff.1 h
    exact congrArg Nat.succ (ih hrest)

theorem evalEntries_cons_eq_some_iff {key value : Expr} {rest : List (Expr × Expr)}
    {pairs : List (String × Value)} :
    evalEntries ((key, value) :: rest) w = some (pairs, w') ↔
      ∃ k v ps w₁ w₂, key.eval w = some (some k, w₁) ∧ value.eval w₁ = some (some v, w₂) ∧
        evalEntries rest w₂ = some (ps, w') ∧ pairs = (k.key, v) :: ps := by
  simp only [evalEntries, Eval.bind_eq_some_iff, Eval.value_eq_some_iff, Eval.pure_eq_some_iff,
    Prod.mk.injEq]
  constructor
  · rintro ⟨k, w₁, hk, v, w₂, hv, ps, _, hps, rfl, rfl⟩
    exact ⟨k, v, ps, w₁, w₂, hk, hv, hps, rfl⟩
  · rintro ⟨k, v, ps, w₁, w₂, hk, hv, hps, rfl⟩
    exact ⟨k, w₁, hk, v, w₂, hv, ps, w', hps, rfl, rfl⟩

/-! ## Expressions that have a result

One equivalence for each constructor and operator: what has to be had of the operands, and what
comes of it. -/

section Results

variable {name : String} {left right base key operand : Expr} {r : Option Value}

theorem eval_ident_eq_some_iff : (Expr.ident name).eval w = some (r, w') ↔
    ∃ v, w.vars name = some v ∧ r = some v ∧ w' = w := by
  simp only [eval, Eval.bind_eq_some_iff, Eval.lookup_eq_some_iff, Eval.pure_eq_some_iff,
    Prod.mk.injEq]
  constructor
  · rintro ⟨v, _, ⟨hv, rfl⟩, rfl, rfl⟩
    exact ⟨v, hv, rfl, rfl⟩
  · rintro ⟨v, hv, rfl, rfl⟩
    exact ⟨v, _, ⟨hv, rfl⟩, rfl, rfl⟩

theorem eval_array_eq_some_iff {items : List Expr} : (Expr.array items).eval w = some (r, w') ↔
    ∃ values, evalAll items w = some (values, w') ∧ r = some (.array .any values) := by
  simp only [eval, Eval.bind_eq_some_iff, Eval.pure_eq_some_iff, Prod.mk.injEq]
  constructor
  · rintro ⟨values, _, hvalues, rfl, rfl⟩
    exact ⟨values, hvalues, rfl⟩
  · rintro ⟨values, hvalues, rfl⟩
    exact ⟨values, w', hvalues, rfl, rfl⟩

theorem eval_map_eq_some_iff {entries : List (Expr × Expr)} :
    (Expr.map entries).eval w = some (r, w') ↔
      ∃ pairs, evalEntries entries w = some (pairs, w') ∧
        r = some (.map .any (Entries.ofList pairs)) := by
  simp only [eval, Eval.bind_eq_some_iff, Eval.pure_eq_some_iff, Prod.mk.injEq]
  constructor
  · rintro ⟨pairs, _, hpairs, rfl, rfl⟩
    exact ⟨pairs, hpairs, rfl⟩
  · rintro ⟨pairs, hpairs, rfl⟩
    exact ⟨pairs, w', hpairs, rfl, rfl⟩

theorem eval_element_eq_some_iff :
    (Expr.element base key).eval w = some (r, w') ↔
      ∃ c k v w₁, base.eval w = some (some c, w₁) ∧ key.eval w₁ = some (some k, w') ∧
        c.at? k = some v ∧ r = some v := by
  simp only [eval, Eval.bind_eq_some_iff, Eval.value_eq_some_iff, Eval.of_eq_some_iff,
    Eval.pure_eq_some_iff, Prod.mk.injEq]
  constructor
  · rintro ⟨c, w₁, hc, k, _, hk, v, _, ⟨hv, rfl⟩, rfl, rfl⟩
    exact ⟨c, k, v, w₁, hc, hk, hv, rfl⟩
  · rintro ⟨c, k, v, w₁, hc, hk, hv, rfl⟩
    exact ⟨c, w₁, hc, k, w', hk, v, w', ⟨hv, rfl⟩, rfl, rfl⟩

theorem eval_unary_eq_some_iff {op : UnaryOp} : (Expr.unary op operand).eval w = some (r, w') ↔
    ∃ a v, operand.eval w = some (some a, w') ∧ a.negation? op = some v ∧ r = some v := by
  simp only [eval, Eval.bind_eq_some_iff, Eval.value_eq_some_iff, Eval.of_eq_some_iff,
    Eval.pure_eq_some_iff, Prod.mk.injEq]
  constructor
  · rintro ⟨a, _, ha, v, _, ⟨hv, rfl⟩, rfl, rfl⟩
    exact ⟨a, v, ha, hv, rfl⟩
  · rintro ⟨a, v, ha, hv, rfl⟩
    exact ⟨a, w', ha, v, w', ⟨hv, rfl⟩, rfl, rfl⟩

theorem eval_arith_eq_some_iff {op : Arith} :
    (Expr.binary left (.arith op) right).eval w = some (r, w') ↔
      ∃ a b v w₁, left.eval w = some (some a, w₁) ∧ right.eval w₁ = some (some b, w') ∧
        a.arith? op b = some v ∧ r = some v := by
  simp only [eval, Eval.bind_eq_some_iff, Eval.value_eq_some_iff, Eval.of_eq_some_iff,
    Eval.pure_eq_some_iff, Prod.mk.injEq]
  constructor
  · rintro ⟨a, w₁, ha, b, _, hb, v, _, ⟨hv, rfl⟩, rfl, rfl⟩
    exact ⟨a, b, v, w₁, ha, hb, hv, rfl⟩
  · rintro ⟨a, b, v, w₁, ha, hb, hv, rfl⟩
    exact ⟨a, w₁, ha, b, w', hb, v, w', ⟨hv, rfl⟩, rfl, rfl⟩

theorem eval_relation_eq_some_iff {op : Relation} :
    (Expr.binary left (.relation op) right).eval w = some (r, w') ↔
      ∃ a b holds w₁, left.eval w = some (some a, w₁) ∧ right.eval w₁ = some (some b, w') ∧
        (op.apply a b).toOption = some holds ∧ r = some (.bool holds) := by
  simp only [eval, Eval.bind_eq_some_iff, Eval.value_eq_some_iff, Eval.of_eq_some_iff,
    Eval.pure_eq_some_iff, Prod.mk.injEq]
  constructor
  · rintro ⟨a, w₁, ha, b, _, hb, holds, _, ⟨hv, rfl⟩, rfl, rfl⟩
    exact ⟨a, b, holds, w₁, ha, hb, hv, rfl⟩
  · rintro ⟨a, b, holds, w₁, ha, hb, hv, rfl⟩
    exact ⟨a, w₁, ha, b, w', hb, holds, w', ⟨hv, rfl⟩, rfl, rfl⟩

/-- The right operand is evaluated only if the left one is true. -/
theorem eval_and_eq_some_iff : (Expr.binary left .and right).eval w = some (r, w') ↔
    ∃ a w₁, left.eval w = some (some a, w₁) ∧
      ((a.isTrue = false ∧ r = some a ∧ w' = w₁) ∨
        (a.isTrue = true ∧ ∃ b, right.eval w₁ = some (some b, w') ∧ r = some b)) := by
  simp only [eval, Eval.bind_eq_some_iff, Eval.value_eq_some_iff]
  refine exists_congr fun a => exists_congr fun w₁ => and_congr_right fun _ => ?_
  cases a.isTrue with
  | false => simp
  | true =>
    simp only [if_pos, Eval.bind_eq_some_iff, Eval.value_eq_some_iff, Eval.pure_eq_some_iff,
      Prod.mk.injEq]
    constructor
    · rintro ⟨b, _, hb, rfl, rfl⟩
      exact Or.inr ⟨trivial, b, hb, rfl⟩
    · rintro (⟨htrue, _⟩ | ⟨_, b, hb, rfl⟩)
      · cases htrue
      · exact ⟨b, w', hb, rfl, rfl⟩

/-- The right operand is evaluated only if the left one is not true. -/
theorem eval_or_eq_some_iff : (Expr.binary left .or right).eval w = some (r, w') ↔
    ∃ a w₁, left.eval w = some (some a, w₁) ∧
      ((a.isTrue = true ∧ r = some a ∧ w' = w₁) ∨
        (a.isTrue = false ∧ ∃ b, right.eval w₁ = some (some b, w') ∧ r = some b)) := by
  simp only [eval, Eval.bind_eq_some_iff, Eval.value_eq_some_iff]
  refine exists_congr fun a => exists_congr fun w₁ => and_congr_right fun _ => ?_
  cases a.isTrue with
  | true => simp
  | false =>
    simp only [Bool.false_eq_true, if_false, Eval.bind_eq_some_iff, Eval.value_eq_some_iff,
      Eval.pure_eq_some_iff, Prod.mk.injEq]
    constructor
    · rintro ⟨b, _, hb, rfl, rfl⟩
      exact Or.inr ⟨trivial, b, hb, rfl⟩
    · rintro (⟨htrue, _⟩ | ⟨_, b, hb, rfl⟩)
      · cases htrue
      · exact ⟨b, w', hb, rfl, rfl⟩

/-- A call of `len` with a container that has a size. -/
theorem eval_len {arg : Expr} {c : Value} {size : Nat} (h : arg.eval w = some (some c, w'))
    (hsize : c.size.toOption = some size) :
    (Expr.call "len" [arg]).eval w = some (some (.number (.ofNat size)), w') := by
  have hargs : evalAll [arg] w = some ([c], w') :=
    evalAll_cons_eq_some_iff.2 ⟨c, [], w', h, by simp [evalAll], rfl⟩
  simp only [eval, Eval.call, Eval.bind_eq_some_iff]
  refine ⟨_, w', hargs, ?_⟩
  rw [if_neg (by decide)]
  simp only [Eval.bind_eq_some_iff, Eval.of_eq_some_iff, Eval.pure_eq_some_iff]
  exact ⟨size, w', ⟨hsize, rfl⟩, rfl⟩

end Results

/-! ## Evaluating twice -/

theorem evalAll_pure {es : List Expr} {values : List Value}
    (hes : ∀ e ∈ es, ∀ {v w w'}, e.eval w = some (some v, w') → w' = w)
    (h : evalAll es w = some (values, w')) : w' = w := by
  induction es generalizing w values with
  | nil => simp_all [evalAll]
  | cons e rest ih =>
    obtain ⟨v, vs, w₁, hv, hvs, _⟩ := evalAll_cons_eq_some_iff.1 h
    have hfirst := hes e List.mem_cons_self hv
    have hrest := ih (fun e he => hes e (List.mem_cons_of_mem _ he)) hvs
    rw [hrest, hfirst]

theorem evalEntries_pure {es : List (Expr × Expr)} {pairs : List (String × Value)}
    (hes : ∀ p ∈ es, (∀ {v w w'}, p.1.eval w = some (some v, w') → w' = w) ∧
      ∀ {v w w'}, p.2.eval w = some (some v, w') → w' = w)
    (h : evalEntries es w = some (pairs, w')) : w' = w := by
  induction es generalizing w pairs with
  | nil => simp_all [evalEntries]
  | cons p rest ih =>
    obtain ⟨key, value⟩ := p
    obtain ⟨k, v, ps, w₁, w₂, hk, hv, hps, _⟩ := evalEntries_cons_eq_some_iff.1 h
    have hkey := (hes _ List.mem_cons_self).1 hk
    have hvalue := (hes _ List.mem_cons_self).2 hv
    have hrest := ih (fun e he => hes e (List.mem_cons_of_mem _ he)) hps
    rw [hrest, hvalue, hkey]

/-- An expression without assignments that yields a value leaves the world as it was: a call of
`print` in it would have yielded nothing where a value was needed. -/
theorem eval_pure {e : Expr} (he : e.AssignmentFree) {v : Value}
    (h : e.eval w = some (some v, w')) : w' = w := by
  -- On the expression. Only `print` and assignments change the world: the first yields no value,
  -- the others are ruled out.
  induction e using Expr.induct generalizing v w w' with
  | literal => simp_all
  | ident name =>
    obtain ⟨_, _, _, rfl⟩ := eval_ident_eq_some_iff.1 h
    rfl
  | element base key ihb ihk =>
    obtain ⟨_, hbase, hkey⟩ := all_element_iff.1 he
    obtain ⟨_, _, _, w₁, hb, hk, _, _⟩ := eval_element_eq_some_iff.1 h
    rw [ihk hkey hk, ihb hbase hb]
  | array items ih =>
    have hitems := (all_array_iff.1 he).2
    obtain ⟨_, hall, _⟩ := eval_array_eq_some_iff.1 h
    exact evalAll_pure (fun e hmem _ _ _ hv => ih e hmem (hitems e hmem) hv) hall
  | map entries ih =>
    have hentries := (all_map_iff.1 he).2
    obtain ⟨_, hall, _⟩ := eval_map_eq_some_iff.1 h
    refine evalEntries_pure (fun p hmem => ⟨fun hv => ?_, fun hv => ?_⟩) hall
    · exact (ih p hmem).1 (hentries p hmem).1 hv
    · exact (ih p hmem).2 (hentries p hmem).2 hv
  | call name args ih =>
    have hargs := (all_call_iff.1 he).2
    simp only [eval, Eval.bind_eq_some_iff] at h
    obtain ⟨_, w₁, hall, hcall⟩ := h
    rw [Eval.call_pure hcall]
    exact evalAll_pure (fun e hmem _ _ _ hv => ih e hmem (hargs e hmem) hv) hall
  | group inner ih =>
    rw [eval_group] at h
    exact ih (all_group_iff.1 he).2 h
  | unary op operand ih =>
    obtain ⟨_, _, hv, _, _⟩ := eval_unary_eq_some_iff.1 h
    exact ih (all_unary_iff.1 he).2 hv
  | binary left op right ihl ihr =>
    obtain ⟨hself, hleft, hright⟩ := all_binary_iff.1 he
    cases op with
    | arith op =>
      obtain ⟨_, _, _, w₁, hl, hr, _, _⟩ := eval_arith_eq_some_iff.1 h
      rw [ihr hright hr, ihl hleft hl]
    | relation op =>
      obtain ⟨_, _, _, w₁, hl, hr, _, _⟩ := eval_relation_eq_some_iff.1 h
      rw [ihr hright hr, ihl hleft hl]
    | and =>
      obtain ⟨_, w₁, hl, ⟨_, _, rfl⟩ | ⟨_, _, hr, _⟩⟩ := eval_and_eq_some_iff.1 h
      · exact ihl hleft hl
      · rw [ihr hright hr, ihl hleft hl]
    | or =>
      obtain ⟨_, w₁, hl, ⟨_, _, rfl⟩ | ⟨_, _, hr, _⟩⟩ := eval_or_eq_some_iff.1 h
      · exact ihl hleft hl
      · rw [ihr hright hr, ihl hleft hl]
    | assign => cases hself
    | update op => cases hself

/-! ## Targets of assignments -/

theorem root?_of_path {e : Expr} {name : String} {keys : List Value}
    (h : e.path w = some ((name, keys), w')) : e.root? = some name := by
  induction e using Expr.induct generalizing keys w' with
  | ident x =>
    simp only [path, Eval.pure_eq_some_iff, Prod.mk.injEq] at h
    rw [root?, h.1.1]
  | element base key ihb _ =>
    simp only [path, Eval.bind_eq_some_iff, Eval.pure_eq_some_iff, Prod.mk.injEq] at h
    obtain ⟨⟨x, ks⟩, w₁, hp, _, _, _, ⟨rfl, _⟩, _⟩ := h
    exact ihb hp
  | _ => simp [path] at h

/-- The value of a variable or of an element is found by the path that an assignment to it would
take. -/
theorem path_of_eval {e : Expr} (he : e.AssignmentFree) {name : String}
    (hroot : e.root? = some name) {v : Value} (h : e.eval w = some (some v, w')) :
    ∃ keys root, e.path w = some ((name, keys), w) ∧ w.vars name = some root ∧
      root.follow? keys = some v := by
  induction e using Expr.induct generalizing v w' with
  | ident x =>
    obtain rfl : x = name := Option.some.inj hroot
    simp only [eval, Eval.bind_eq_some_iff, Eval.lookup_eq_some_iff, Eval.pure_eq_some_iff,
      Prod.mk.injEq] at h
    obtain ⟨root, _, ⟨hv, rfl⟩, hroot, rfl⟩ := h
    obtain rfl := Option.some.inj hroot
    exact ⟨[], v, by simp [path], hv, rfl⟩
  | element base key ihb _ =>
    obtain ⟨_, hbase, hkey⟩ := all_element_iff.1 he
    simp only [eval, Eval.bind_eq_some_iff, Eval.value_eq_some_iff, Eval.of_eq_some_iff,
      Eval.pure_eq_some_iff, Prod.mk.injEq] at h
    obtain ⟨c, w₁, hb, k, w₂, hk, u, _, ⟨hat, rfl⟩, hv, rfl⟩ := h
    obtain rfl := Option.some.inj hv
    -- Neither container nor key changes the world, so the path is read in one world throughout.
    obtain rfl := eval_pure hbase hb
    obtain rfl := eval_pure hkey hk
    obtain ⟨keys, root, hpath, hvar, hfollow⟩ := ihb hbase hroot hb
    refine ⟨keys ++ [k], root, ?_, hvar, ?_⟩
    · simp only [path, Eval.bind_eq_some_iff, Eval.value_eq_some_iff, Eval.pure_eq_some_iff]
      exact ⟨_, _, hpath, k, _, hk, rfl⟩
    · rw [Value.follow?_concat, hfollow, Option.bind_some, hat]
  | _ => cases hroot


end Expr

/-- The world that a program leaves. -/
def Program.eval : Program → World → Option World
  | [], w => some w
  | st :: rest, w => (st.expr.eval w).bind fun r => Program.eval rest r.2

end LineScript
