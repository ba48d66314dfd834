import LineScript.Proofs.Code.Passage
import LineScript.Proofs.Code.Reading
import LineScript.Proofs.Value.Place

/-!
# Stores into elements

A store into `x[k₁]…[kₙ]` works from the inside out. It computes the container `x[k₁]…[kₙ₋₁]` and
the key `kₙ`, puts the value into the container, and as this is a copy, stores it into
`x[k₁]…[kₙ₋₁]` in the same way. So the variable and the keys are looked up `n` times, each time one
key less.

`LooksUp` follows a run through one of these computations and `Stores` through a store; a `Lookup`
is what was found on the way. Where all lookups of a store have found the same, the store has placed
the value at the path of the keys (`Stores.places`). Nothing is asked of the keys for this. They may
assign variables, the one at the root among them.

Every run to the end that comes to a store carries it out (`stores_of_run`). If the keys only read,
all lookups find what the evaluator finds (`Reads`).
-/

set_option autoImplicit false

namespace LineScript

open State Emit

/-- The keys of an element, from the variable on. -/
def Expr.keys : Expr → List Expr
  | .element base key => base.keys ++ [key]
  | _ => []

namespace Lowering

variable {code : List Instruction} {scope mid after : Scope} {s t u f final : State}
    {B : String → Prop} {w : World}

/-! ## Single instructions -/

section Instructions

variable {Q : Operand → Scope → State → Prop}

/-- An element is read as it is, with the kinds it carries. -/
theorem get_finds {container key : Operand}
    (h : ∀ kind c k v, s.registers.get? container.register = some c →
      s.registers.get? key.register = some k → c.at? k = some v →
      Q ⟨scope.registers, kind⟩ { scope with registers := scope.registers + 1 }
        (s.wrote scope.registers v)) : ends code (get container key) Q scope s := by
  have hentry : ∀ kind,
      ends code (into (.getEntry container.register key.register) kind) Q scope s := by
    intro kind
    refine into_ends fun effect he => ?_
    obtain ⟨m, k, v, hm, hk, hv, rfl⟩ := Instruction.effect_getEntry he
    obtain ⟨element, entries, rfl, hget⟩ := Value.getEntry_eq_ok_iff.1 hv
    exact ⟨v, rfl, h _ _ _ _ hm hk hget⟩
  unfold get
  split
  · refine wp_bind (wp_checkIndex (into_ends fun effect he => ?_))
    obtain ⟨a, i, v, ha, hi, hv, rfl⟩ := Instruction.effect_getItem he
    obtain ⟨element, items, j, rfl, hj, hget⟩ := Value.getItem_eq_ok_iff.1 hv
    obtain ⟨hindex, _⟩ := Value.position_eq_ok_iff.1 hj
    exact ⟨v, rfl, h _ _ _ _ ha hi (by rw [Value.at?, hindex, Option.bind_some, hget])⟩
  · exact hentry _
  · exact hentry _

/-- An element is put into a container in its register. -/
theorem put_sets {container key value : Operand}
    (h : ∀ kind c k v new, s.registers.get? container.register = some c →
      s.registers.get? key.register = some k → s.registers.get? value.register = some v →
      c.set? k v = some new → Q ⟨container.register, kind⟩ scope (s.wrote container.register new)) :
    ends code (put container key value) Q scope s := by
  have hentry : ∀ kind, ends code (do
      Emit.instruction (.setEntry container.register key.register value.register)
      pure ⟨container.register, kind⟩) Q scope s := by
    intro kind
    refine wp_bind (wp_write (fun _ => trivial) (fun _ _ => trivial) fun effect he => ?_)
    obtain ⟨m, k, v, new, hm, hk, hv, hnew, rfl⟩ := Instruction.effect_setEntry he
    obtain ⟨element, entries, rfl, rfl⟩ := Value.setEntry_eq_ok_iff.1 hnew
    exact ⟨_, _, rfl, wp_pure (h _ _ _ _ _ hm hk hv rfl)⟩
  unfold put
  split
  · refine wp_bind (wp_checkIndex
      (wp_bind (wp_write (fun _ => trivial) (fun _ _ => trivial) fun effect he => ?_)))
    obtain ⟨a, i, v, new, ha, hi, hv, hnew, rfl⟩ := Instruction.effect_setItem he
    obtain ⟨element, items, j, rfl, hj, rfl⟩ := Value.setItem_eq_ok_iff.1 hnew
    obtain ⟨hindex, hlt⟩ := Value.position_eq_ok_iff.1 hj
    refine ⟨_, _, rfl, wp_pure (h _ _ _ _ _ ha hi hv ?_)⟩
    rw [Value.set?, hindex, Option.bind_some, if_pos hlt]
  · exact hentry _
  · exact hentry _

end Instructions

/-! ## Lookups -/

/-- What a run found when it computed the container and the key of an element: the variable at the
root, the keys of the container, the container and the key. -/
structure Lookup where
  root : Value
  path : List Value
  container : Value
  key : Value

/-- All keys of the element. Of a key only the text and the number count, not the kinds of what it
may contain. -/
def Lookup.keys (l : Lookup) : List Value := (l.path ++ [l.key]).map Value.bare

/-- A run computes the container and the key of an element. The registers in which they are found
are read when both are computed, and so is the variable at the root if it is the container
itself. -/
inductive LooksUp (code : List Instruction) :
    Expr → Expr → Scope → State → Operand → Operand → Scope → State → Lookup → Prop
  | root {name : String} {key : Expr} {scope after : Scope} {s u : State} {c k : Operand}
      {root kv : Value} (hname : scope.find? name = some c)
      (hkey : (expr key).Yields s.next scope k u.next after)
      (hrun : Reaches code s u) (hroot : u.registers.get? c.register = some root)
      (hkv : u.registers.get? k.register = some kv) :
      LooksUp code (.ident name) key scope s c k after u ⟨root, [], root, kv⟩
  | inner {base inner key : Expr} {scope mid last after : Scope} {s t v u : State}
      {c k o q : Operand} {l : Lookup} {cv kv : Value}
      (hbase : LooksUp code base inner scope s c k mid t l)
      (hget : (get c k).Yields t.next mid o v.next last) (hread : Reaches code t v)
      (hat : l.container.at? l.key = some cv) (hkey : (expr key).Yields v.next last q u.next after)
      (hrun : Reaches code v u) (hcv : u.registers.get? o.register = some cv)
      (hkv : u.registers.get? q.register = some kv) :
      LooksUp code (.element base inner) key scope s o q after u ⟨l.root, l.path ++ [l.key], cv, kv⟩

/-- The keys of the container lead to it. -/
theorem LooksUp.follow {base key : Expr} {c k : Operand} {l : Lookup}
    (h : LooksUp code base key scope s c k after u l) :
    l.root.follow? l.path = some l.container := by
  induction h with
  | root => rfl
  | inner _ _ _ hat _ _ _ _ ih => rw [Value.follow?_concat, ih, Option.bind_some, hat]

theorem LooksUp.length {base key : Expr} {c k : Operand} {l : Lookup}
    (h : LooksUp code base key scope s c k after u l) :
    l.keys.length = (Expr.element base key).keys.length := by
  induction h with
  | root => rfl
  | inner _ _ _ _ _ _ _ _ ih => simpa [Lookup.keys, Expr.keys] using ih

/-! ## Stores -/

/-- A run looks up the container and the key of an element and puts a value into the container. The
register `o` holds what the container is then. -/
inductive Puts (code : List Instruction) (base key : Expr) (v : Operand) (scope : Scope) (s : State)
    (stored : Value) (l : Lookup) (o : Operand) (new : Value) (after : Scope) (t : State) : Prop
  | intro {c k : Operand} {mid : Scope} {u : State}
      (hlook : LooksUp code base key scope s c k mid u l)
      (hv : u.registers.get? v.register = some stored)
      (hset : l.container.set? l.key stored = some new)
      (hput : (put c k v).Yields u.next mid o t.next after) (hrun : Reaches code u t)
      (hnew : t.registers.get? o.register = some new)

/-- A run stores a value into an element, level by level. -/
inductive Stores (code : List Instruction) :
    Expr → Expr → Operand → Scope → State → Value → List Lookup → Scope → State → Prop
  | root {name : String} {key : Expr} {scope after : Scope} {s f : State}
      {v o : Operand} {stored new : Value} {l : Lookup}
      (hput : Puts code (.ident name) key v scope s stored l o new after f) :
      Stores code (.ident name) key v scope s stored [l] (after.bind name o) f
  | inner {base inner key : Expr} {scope mid after : Scope} {s t f : State} {v o : Operand}
      {stored new : Value} {l : Lookup} {lookups : List Lookup}
      (hput : Puts code (.element base inner) key v scope s stored l o new mid t)
      (hback : Stores code base inner o mid t new lookups after f) :
      Stores code (.element base inner) key v scope s stored (l :: lookups) after f

theorem Puts.length {base key : Expr} {v o : Operand} {stored new : Value} {l : Lookup}
    (h : Puts code base key v scope s stored l o new after t) :
    l.keys.length = (Expr.element base key).keys.length :=
  have ⟨hlook, _, _, _, _, _⟩ := h
  hlook.length

/-- The keys are looked up again at every level, one key less each time. -/
theorem Stores.lengths {base key : Expr} {v : Operand} {stored : Value} {lookups : List Lookup}
    (h : Stores code base key v scope s stored lookups after f) :
    lookups.map (fun l => l.keys.length) =
      (List.range' 1 (Expr.element base key).keys.length).reverse := by
  induction h with
  | root hput => simp [hput.length, Expr.keys]
  | inner hput _ ih =>
    rw [List.map_cons, ih, hput.length, Expr.keys, List.length_append, List.length_singleton,
      List.range'_1_concat, List.reverse_append, Nat.add_comm]
    rfl

theorem Stores.length_le {base key : Expr} {v : Operand} {stored : Value} {lookups : List Lookup}
    {l : Lookup} (h : Stores code base key v scope s stored lookups after f) (hl : l ∈ lookups) :
    l.keys.length ≤ (Expr.element base key).keys.length := by
  have hmem : l.keys.length ∈ lookups.map fun l => l.keys.length := List.mem_map_of_mem hl
  rw [h.lengths, List.mem_reverse, List.mem_range'_1] at hmem
  omega

/-- Where all lookups of a store have found the same, the variable at the root holds its old value
with the stored value at the path of the keys. -/
theorem Stores.places {base key : Expr} {v : Operand} {stored root : Value} {lookups : List Lookup}
    {keys : List Value} (h : Stores code base key v scope s stored lookups after f)
    (hlength : keys.length = (Expr.element base key).keys.length)
    (hsame : ∀ l ∈ lookups, l.root = root ∧ l.keys <+: keys) :
    ∃ x b new, base.root? = some x ∧ after.find? x = some b ∧
      f.registers.get? b.register = some new ∧ stored.place? root keys = some new := by
  -- On the levels. The container of one level is what the next level stores, and its path is
  -- shorter by a key.
  induction h generalizing keys with
  | @root name _ _ _ _ _ _ o _ new l hput =>
    obtain ⟨hlook, _, hset, _, _, hnew⟩ := hput
    obtain ⟨hroot, hprefix⟩ := hsame l List.mem_cons_self
    have hkeys : l.keys = keys := hprefix.eq_of_length (hlook.length.trans hlength.symm)
    refine ⟨name, o, new, rfl, (Scope.find?_bind _ _ _ _).trans (if_pos rfl), hnew, ?_⟩
    cases hlook with
    | root =>
      rw [← hkeys, ← hroot]
      exact (Value.set?_bare_key _ _ _).trans hset
  | @inner base inner _ _ _ _ _ _ _ _ _ _ _ l lookups hput hback ih =>
    obtain ⟨hlook, _, hset, _, _, _⟩ := hput
    obtain ⟨hroot, hprefix⟩ := hsame l List.mem_cons_self
    have hkeys : l.keys = keys := hprefix.eq_of_length (hlook.length.trans hlength.symm)
    have hsplit : keys = l.path.map Value.bare ++ [l.key.bare] := by
      rw [← hkeys, Lookup.keys, List.map_append]; rfl
    have hshorter : (l.path.map Value.bare).length = (Expr.element base inner).keys.length := by
      have hall := hlook.length
      simp only [Lookup.keys, Expr.keys, List.length_map, List.length_append,
        List.length_singleton] at hall ⊢
      omega
    have hothers : ∀ l' ∈ lookups, l'.root = root ∧ l'.keys <+: l.path.map Value.bare := by
      intro l' hl'
      obtain ⟨hroot', hprefix'⟩ := hsame l' (List.mem_cons_of_mem _ hl')
      refine ⟨hroot', List.prefix_of_prefix_length_le hprefix' (hsplit ▸ List.prefix_append _ _) ?_⟩
      rw [hshorter]
      exact hback.length_le hl'
    obtain ⟨x, b, last, hx, hb, hlast, hplace⟩ := ih hshorter hothers
    refine ⟨x, b, last, hx, hb, hlast, ?_⟩
    rw [hsplit, Value.place?_concat, Value.follow?_bare_keys, ← hroot, hlook.follow,
      Option.bind_some, Value.set?_bare_key, hset, Option.bind_some, hroot, hplace]

/-! ## Runs through stores -/

/-- A variable needs no code. -/
theorem ident_code {name : String} {n : Nat} {c : Emitted Operand}
    (h : expr (.ident name) n scope = .ok c) :
    scope.find? name = some c.value ∧ c.code = [] ∧ c.scope = scope := by
  rw [expr] at h
  obtain ⟨x, y, hx, hy, rfl⟩ := bind_eq_ok h
  obtain rfl := Except.ok.inj hx
  cases hb : scope.find? name with
  | none =>
    rw [hb] at hy
    cases hy
  | some b =>
    rw [hb] at hy
    obtain rfl := Except.ok.inj hy
    exact ⟨rfl, rfl, rfl⟩

/-- What is known behind an expression; and what it has computed, if it only reads. -/
theorem expr_passes {e : Expr} (hwf : scope.WF) :
    ends code (expr e) (fun o after t => Ran (fun _ => True) scope s after t ∧
      Resides scope e.alias? o after ∧
      (e.OnlyReads B → Sees B w scope s → Ran (fun _ => False) scope s after t ∧
        ∀ v, t.registers.get? o.register = some v → e.eval w = some (some v.bare, w))) scope s := by
  by_cases h : e.OnlyReads B ∧ Sees B w scope s
  · refine wp_mono (expr_reads h.1 h.2) ?_
    rintro o after t _ ⟨heval, hran, hres⟩
    exact ⟨hran.mono fun _ hx => hx.elim, hres, fun _ _ => ⟨hran, heval⟩⟩
  · refine wp_mono (expr_through e.assignsOnly_true hwf) ?_
    rintro o after t _ ⟨hran, hres⟩
    exact ⟨hran, hres, fun hreads hsees => absurd ⟨hreads, hsees⟩ h⟩

/-- What is known behind the reading of an element: a new register holds it. -/
theorem get_passes {c k : Operand} (hwf : scope.WF) :
    ends code (get c k) (fun o after t => (∃ cv kv v, s.registers.get? c.register = some cv ∧
      s.registers.get? k.register = some kv ∧
      cv.at? kv = some v ∧ t.registers.get? o.register = some v) ∧
      Ran (fun _ => False) scope s after t ∧ Resides scope none o after) scope s :=
  wp_resides hwf get_grows <|
    get_finds fun _ cv kv v hcv hkv hat => ⟨cv, kv, v, hcv, hkv, hat, wrote_get?_self _ _ _⟩

/-- What the evaluator finds of an element: the variable at the root, and the keys, which change
nothing. -/
structure Reads (w : World) (base key : Expr) (scope : Scope) (s : State) (root : Value)
    (keys : List Value) : Prop where
  evaluated : Expr.evalAll (Expr.element base key).keys w = some (keys, w)
  held :
      ∃ x b, base.root? = some x ∧ scope.find? x = some b ∧ s.registers.get? b.register = some root

/-- The container of an element is an element of the same variable, with a key less. It is still
found after code that changes no variable. -/
theorem Reads.container {base inner key : Expr} {root root' : Value} {keys keys' : List Value}
    (h : Reads w (.element base inner) key scope s root keys)
    (h' : Reads w base inner after t root' keys') (hfind : ∀ x, after.find? x = scope.find? x)
    (hsame : ∀ x b, scope.find? x = some b →
      t.registers.get? b.register = s.registers.get? b.register) :
    root' = root ∧ keys' <+: keys := by
  constructor
  · obtain ⟨x, b, hx, hb, hroot⟩ := h.held
    obtain ⟨x', b', hx', hb', hroot'⟩ := h'.held
    obtain rfl : x = x' := Option.some.inj (hx.symm.trans hx')
    obtain rfl : b = b' := Option.some.inj (hb.symm.trans ((hfind x).symm.trans hb'))
    exact Option.some.inj (hroot'.symm.trans ((hsame x b hb).trans hroot))
  · obtain ⟨vs, v, w₁, hvs, _, rfl⟩ := Expr.evalAll_concat_eq_some_iff.1 h.evaluated
    obtain ⟨rfl, rfl⟩ := Prod.mk.inj (Option.some.inj (h'.evaluated.symm.trans hvs))
    exact List.prefix_append _ _

/-- What is known behind the code of a container and a key. They have been looked up, once something
has found them in their registers. Keys that only read have the values that the evaluator gives
them. -/
structure Found (B : String → Prop) (w : World) (code : List Instruction) (base key : Expr)
    (scope : Scope) (s : State) (c k : Operand) (after : Scope) (u : State) : Prop where
  ran : Ran (fun _ => True) scope s after u
  resides : Resides scope base.alias? c after
  reads : (∀ e ∈ (Expr.element base key).keys, e.OnlyReads B) → Sees B w scope s →
    Ran (fun _ => False) scope s after u
  lookup :
      ∀ {cv kv}, u.registers.get? c.register = some cv → u.registers.get? k.register = some kv →
        ∃ l, LooksUp code base key scope s c k after u l ∧ l.container = cv ∧ l.key = kv ∧
          ((∀ e ∈ (Expr.element base key).keys, e.OnlyReads B) → Sees B w scope s →
            Reads w base key scope s l.root l.keys)

theorem Found.root {name : String} {key : Expr} {c k : Operand} (hwf : scope.WF)
    (hname : scope.find? name = some c) (hkey : (expr key).Yields s.next scope k u.next after)
    (hrun : Reaches code s u) (hran : Ran (fun _ => True) scope s after u)
    (hreads : key.OnlyReads B → Sees B w scope s → Ran (fun _ => False) scope s after u ∧
      ∀ v, u.registers.get? k.register = some v → key.eval w = some (some v.bare, w)) :
    Found B w code (.ident name) key scope s c k after u where
  ran := hran
  resides := Resides.since
    ⟨hwf.lt hname, fun hx => ⟨c, Option.some.inj hx ▸ hname, rfl⟩, fun hn => nomatch hn⟩ hran.since
  reads hall hsees := (hreads (hall key (by simp [Expr.keys])) hsees).1
  lookup {cv kv} hcv hkv := by
    refine ⟨⟨cv, [], cv, kv⟩, .root hname hkey hrun hcv hkv, rfl, rfl, fun hall hsees => ?_⟩
    obtain ⟨hfree, heval⟩ := hreads (hall key (by simp [Expr.keys])) hsees
    refine ⟨?_, name, c, rfl, hname, (hfree.below (hwf.lt hname)).symm.trans hcv⟩
    exact Expr.evalAll_cons_eq_some_iff.2 ⟨_, [], w, heval kv hkv, by simp [Expr.evalAll], rfl⟩

/-- An element whose container and key have been looked up is read. -/
theorem Found.get_of_run {base key : Expr} {c k : Operand} {a : Emitted Operand}
    (h : Found B w code base key scope s c k mid t) (hget : get c k t.next mid = .ok a)
    (hp : Placed code t.next a.code) (hr : Reaches code t final) (hend : code[final.next]? = none) :
    ∃ l v u, LooksUp code base key scope s c k mid t l ∧
      l.container.at? l.key = some v ∧ Reaches code t u ∧ Reaches code u final ∧
      u.next = t.next + a.code.length ∧ u.registers.get? a.value.register = some v ∧
      Ran (fun _ => True) scope s a.scope u ∧ Resides scope none a.value a.scope ∧
      ((∀ e ∈ (Expr.element base key).keys, e.OnlyReads B) → Sees B w scope s →
        Ran (fun _ => False) scope s a.scope u ∧ Reads w base key scope s l.root l.keys) := by
  obtain ⟨u, htu, huf, hu, ⟨cv, kv, v, hcv, hkv, hat, hv⟩, hran, hres⟩ :=
    passes_of_end (get_passes h.ran.since.wf) hget hp hr hend
  obtain ⟨l, hlook, rfl, rfl, hsame⟩ := h.lookup hcv hkv
  refine ⟨l, v, u, hlook, hat, htu, huf, hu, hv, h.ran.trans (hran.mono fun _ hx => hx.elim), ?_,
    fun hall hs => ?_⟩
  · obtain ⟨hle, hne⟩ := hres.unnamed rfl
    exact .temporary hres.lt (Nat.le_trans h.ran.since.le hle) hne
  · exact ⟨(h.reads hall hs).trans hran, hsame hall hs⟩

/-- A run to the end that comes to the code of a container and a key looks them up. -/
theorem looksUp_of_run {base key : Expr} {x : String} {a : Emitted (List Operand)}
    (hroot : base.root? = some x) (hwf : scope.WF) (h : exprs [base, key] s.next scope = .ok a)
    (hp : Placed code s.next a.code) (hr : Reaches code s final) (hend : code[final.next]? = none) :
    ∃ c k u, a.value = [c, k] ∧ Reaches code s u ∧ Reaches code u final ∧
      u.next = s.next + a.code.length ∧ Found B w code base key scope s c k a.scope u := by
  -- On the container. It is the variable, or it has been read from a container that was looked up
  -- before.
  induction base using Expr.induct generalizing key a final with
  | ident name =>
    obtain ⟨c, k, hc, hk, rfl⟩ := exprs_two_eq_ok h
    obtain ⟨hname, hcode, hscope⟩ := ident_code hc
    simp only [hcode, hscope, List.nil_append, List.length_nil, Nat.add_zero] at hk hp ⊢
    obtain ⟨u, hsu, huf, hn, hran, _, hreads⟩ :=
      passes_of_end (expr_passes (B := B) (w := w) hwf) hk hp hr hend
    exact ⟨c.value, k.value, u, rfl, hsu, huf, hn, .root hwf hname ⟨k.code, hk, hn⟩ hsu hran hreads⟩
  | element base inner ihb _ =>
    obtain ⟨c, k, hc, hk, rfl⟩ := exprs_two_eq_ok h
    obtain ⟨pair, got, hpair, hgot, rfl⟩ := bind_eq_ok (expr_factors hc)
    obtain ⟨c₁, k₁, t, hvalue, hst, htf, ht, hfound⟩ := ihb hroot hpair hp.left.left hr hend
    have hget := hp.left.right
    rw [hvalue, ← ht] at hgot
    rw [← ht] at hget
    obtain ⟨l, element, v, hlook, hat, htv, hvf, hv, helement, hran, hcontainer, hsame⟩ :=
      hfound.get_of_run hgot hget htf hend
    have hn : v.next = s.next + (pair.code ++ got.code).length := by
      rw [hv, ht, List.length_append, Nat.add_assoc]
    rw [← hn] at hk
    have hlast := hp.right
    rw [← hn] at hlast
    obtain ⟨u, hvu, huf, hu, hran', _, hreads⟩ :=
      passes_of_end (expr_passes (B := B) (w := w) hran.since.wf) hk hlast hvf hend
    have hkept : u.registers.get? got.value.register = some element :=
      (hran'.kept (hcontainer.not_owns hran.since.wf fun _ hx => nomatch hx)).trans helement
    have hinner : (∀ e ∈ (base.keys ++ [inner]) ++ [key], e.OnlyReads B) →
        ∀ e ∈ base.keys ++ [inner], e.OnlyReads B :=
      fun hall e he => hall e (List.mem_append_left _ he)
    refine ⟨got.value, k.value, u, rfl, hst.trans (htv.trans hvu), huf, ?_, hran.trans hran',
      hcontainer.since hran'.since, fun hall hs => ?_, fun {cv kv} hcv hkv => ?_⟩
    · rw [hu, hn, List.length_append, List.length_append, List.length_append]
      omega
    · have hfree := (hsame (hinner hall) hs).1
      exact hfree.trans (hreads (hall key (by simp [Expr.keys])) (hs.ran hfree)).1
    · obtain rfl : element = cv := Option.some.inj (hkept.symm.trans hcv)
      refine ⟨⟨l.root, l.path ++ [l.key], element, kv⟩,
        .inner hlook ⟨got.code, hgot, hv⟩ htv hat ⟨k.code, hk, hu⟩ hvu hcv hkv, rfl, rfl,
        fun hall hs => ?_⟩
      obtain ⟨hfree, hread⟩ := hsame (hinner hall) hs
      obtain ⟨_, hkey⟩ := hreads (hall key (by simp [Expr.keys])) (hs.ran hfree)
      refine ⟨Expr.evalAll_concat_eq_some_iff.2 ⟨_, _, w, hread.evaluated, hkey kv hkv, ?_⟩,
        hread.held⟩
      simp [Lookup.keys]
  | _ => cases hroot

/-- What is known behind the replacement of an element. -/
theorem put_passes {c k v : Operand} :
    ends code (put c k v) (fun o after t => o.register = c.register ∧ after = scope ∧
      ∃ cv kv stored new, s.registers.get? c.register = some cv ∧
        s.registers.get? k.register = some kv ∧ s.registers.get? v.register = some stored ∧
        cv.set? kv stored = some new ∧ t.registers = (s.wrote c.register new).registers) scope s :=
  put_sets fun _ cv kv stored new hcv hkv hv hset =>
    ⟨rfl, rfl, cv, kv, stored, new, hcv, hkv, hv, hset, rfl⟩

/-- What a run to the end does at one level of a store. If the keys only read, nothing else has
changed. -/
theorem puts_of_run {base key : Expr} {x : String} {c k v : Operand} {pair : Emitted (List Operand)}
    {a : Emitted Operand} (hroot : base.root? = some x) (hwf : scope.WF)
    (h : exprs [base, key] s.next scope = .ok pair) (hck : pair.value = [c, k])
    (hput : put c k v (s.next + pair.code.length) pair.scope = .ok a)
    (hp : Placed code s.next (pair.code ++ a.code)) (hr : Reaches code s final)
    (hend : code[final.next]? = none) :
    ∃ stored l new u t, Puts code base key v scope s stored l a.value new a.scope t ∧
      Reaches code s t ∧ Reaches code t final ∧ t.next = s.next + (pair.code ++ a.code).length ∧
      Ran (fun _ => True) scope s a.scope u ∧ Resides scope base.alias? a.value a.scope ∧
      u.registers.get? v.register = some stored ∧
      t.registers = (u.wrote a.value.register new).registers ∧
      ((∀ e ∈ (Expr.element base key).keys, e.OnlyReads B) → Sees B w scope s →
        Ran (fun _ => False) scope s a.scope u ∧ Reads w base key scope s l.root l.keys) := by
  obtain ⟨c', k', u, hvalue, hsu, huf, hu, hfound⟩ :=
    looksUp_of_run (B := B) (w := w) hroot hwf h hp.left hr hend
  obtain ⟨rfl, hk⟩ := List.cons.inj (hvalue.symm.trans hck)
  obtain ⟨rfl, _⟩ := List.cons.inj hk
  have hbehind := hp.right
  rw [← hu] at hput hbehind
  obtain ⟨t, hut, htf, ht, ho, hscope, cv, kv, stored, new, hcv, hkv, hv, hset, hregisters⟩ :=
    passes_of_end put_passes hput hbehind huf hend
  obtain ⟨l, hlookup, rfl, rfl, hsame⟩ := hfound.lookup hcv hkv
  have hnew : t.registers.get? a.value.register = some new := by
    rw [hregisters, ho, wrote_get?_self]
  refine ⟨stored, l, new, u, t, .intro hlookup hv hset ⟨a.code, hput, ht⟩ hut hnew, hsu.trans hut,
    htf, ?_, hscope ▸ hfound.ran, ?_, hv, by rw [hregisters, ho], fun hreads hsees => ?_⟩
  · rw [ht, hu, List.length_append, Nat.add_assoc]
  · rw [hscope]
    exact ⟨ho ▸ hfound.resides.lt, fun hx => ho ▸ hfound.resides.named hx,
      fun hx => ho ▸ hfound.resides.unnamed hx⟩
  · exact ⟨hscope ▸ hfound.reads hreads hsees, hsame hreads hsees⟩

/-- The code of a store into an element is that of the container and the key, the replacement of the
element, and the store of the container if this is an element in turn. -/
theorem store_factors {base key : Expr} {v : Operand} {n : Nat} {a : Emitted Unit}
    (h : store (.element base key) v n scope = .ok a) :
    ∃ c k pair b, exprs [base, key] n scope = .ok pair ∧ pair.value = [c, k] ∧
      put c k v (n + pair.code.length) pair.scope = .ok b ∧
      ((∃ name, base = .ident name ∧ a = ⟨(), pair.code ++ b.code, b.scope.bind name b.value⟩) ∨
        ∃ inner innerKey rest, base = .element inner innerKey ∧
          store base b.value (n + (pair.code ++ b.code).length) b.scope = .ok rest ∧
          a = ⟨(), (pair.code ++ b.code) ++ rest.code, rest.scope⟩) := by
  have htarget := target_of_store h
  rw [store] at h
  obtain ⟨c, y, hc, hy, rfl⟩ := bind_eq_ok h
  obtain ⟨k, z, hk, hz, rfl⟩ := bind_eq_ok hy
  obtain ⟨b, rest, hb, hrest, rfl⟩ := bind_eq_ok hz
  rw [Nat.add_assoc, ← List.length_append] at hb
  refine ⟨c.value, k.value, _, b, exprs_two hc hk, rfl, hb, ?_⟩
  rcases htarget with ⟨name, rfl⟩ | ⟨inner, innerKey, rfl⟩
  · obtain rfl := Except.ok.inj hrest
    exact Or.inl ⟨name, rfl, by simp⟩
  · refine Or.inr ⟨inner, innerKey, rest, rfl, ?_, by simp⟩
    simpa [Nat.add_assoc] using hrest

theorem root_of_store {base key : Expr} {v : Operand} {n : Nat} {a : Emitted Unit}
    (h : store (.element base key) v n scope = .ok a) : ∃ x, base.root? = some x := by
  induction base using Expr.induct generalizing key v n scope a with
  | ident name => exact ⟨name, rfl⟩
  | element base inner ihb _ =>
    obtain ⟨_, _, _, _, _, _, _, ⟨_, heq, _⟩ | ⟨_, _, _, _, hback, _⟩⟩ := store_factors h
    · cases heq
    · exact ihb hback
  | _ =>
    rcases target_of_store h with ⟨_, heq⟩ | ⟨_, _, heq⟩
    · cases heq
    · cases heq

/-- A run to the end that comes to the code of a store into an element carries it out. A value in a
register that no code behind it writes is the value that is stored. If the keys only read, this
holds of the register of a variable as well, and all lookups find what the evaluator finds. -/
theorem stores_of_run {base key : Expr} {v : Operand} {a : Emitted Unit} (hwf : scope.WF)
    (h : store (.element base key) v s.next scope = .ok a) (hp : Placed code s.next a.code)
    (hr : Reaches code s final) (hend : code[final.next]? = none) :
    ∃ stored lookups f, Stores code base key v scope s stored lookups a.scope f ∧ Reaches code s f ∧
      Reaches code f final ∧
      (¬ scope.Owns (fun _ => True) v.register → s.registers.get? v.register = some stored) ∧
      ((∀ e ∈ (Expr.element base key).keys, e.OnlyReads B) →
        Sees B w scope s → v.register < scope.registers →
        s.registers.get? v.register = some stored ∧
        ∃ root keys, Reads w base key scope s root keys ∧
          ∀ l ∈ lookups, l.root = root ∧ l.keys <+: keys) := by
  -- On the container. It is the variable, or a copy, and this is what is stored at the next level.
  obtain ⟨x, hroot⟩ := root_of_store h
  induction base using Expr.induct generalizing key v s scope a with
  | ident name =>
    obtain ⟨c, k, pair, b, hpair, hck, hput, ⟨_, heq, rfl⟩ | ⟨_, _, _, heq, _⟩⟩ := store_factors h
    · obtain rfl := Expr.ident.inj heq
      obtain ⟨stored, l, new, u, t, hputs, hst, htf, _, hran, _, hv, _, hsame⟩ :=
        puts_of_run (B := B) (w := w) hroot hwf hpair hck hput hp hr hend
      refine ⟨stored, [l], t, .root hputs, hst, htf,
        fun howns => (hran.kept howns).symm.trans hv, ?_⟩
      intro hreads hsees hlt
      obtain ⟨hfree, hread⟩ := hsame hreads hsees
      refine ⟨(hfree.below hlt).symm.trans hv, l.root, l.keys, hread, fun l' hl' => ?_⟩
      obtain rfl := List.mem_singleton.1 hl'
      exact ⟨rfl, List.prefix_refl _⟩
    · cases heq
  | element base inner ihb _ =>
    obtain ⟨c, k, pair, b, hpair, hck, hput, ⟨_, heq, _⟩ | ⟨_, _, rest, _, hback, rfl⟩⟩ :=
      store_factors h
    · cases heq
    obtain ⟨stored, l, new, u, t, hputs, hst, htf, hn, hran, hres, hv, hregisters, hsame⟩ :=
      puts_of_run (B := B) (w := w) hroot hwf hpair hck hput hp.left hr hend
    have hbehind := hp.right
    rw [← hn] at hback hbehind
    obtain ⟨stored', lookups, f, hstores, htf', hff, hkept, hagree⟩ :=
      ihb hran.since.wf hback hbehind htf hroot
    have hnew : t.registers.get? b.value.register = some new := by rw [hregisters, wrote_get?_self]
    obtain rfl : new = stored' := Option.some.inj
      (hnew.symm.trans (hkept (hres.not_owns hran.since.wf fun _ hx => nomatch hx)))
    refine ⟨stored, l :: lookups, f, .inner hputs hstores, hst.trans htf', hff,
      fun howns => (hran.kept howns).symm.trans hv, ?_⟩
    intro hreads hsees hlt
    obtain ⟨hfree, hread⟩ := hsame hreads hsees
    -- The replacement changes the copy only, so the next level finds what this one found.
    have hcopy := (hres.unnamed rfl).2
    have hsees' : Sees B w b.scope t :=
      ((hsees.ran hfree).wrote hres.lt hcopy).of_registers_eq hregisters
    have hinner : ∀ e ∈ (Expr.element base inner).keys, e.OnlyReads B :=
      fun e he => hreads e (List.mem_append_left _ he)
    obtain ⟨_, root, keys, hread', hall⟩ := hagree hinner hsees' hres.lt
    have hfind : ∀ x, b.scope.find? x = scope.find? x := fun x => hfree.since.same id
    obtain ⟨rfl, hprefix⟩ := hread.container hread' hfind fun x b₀ hb₀ => by
      rw [hregisters, wrote_get?_of_ne (hcopy x b₀ ((hfind x).trans hb₀)), hfree.below (hwf.lt hb₀)]
    refine ⟨(hfree.below hlt).symm.trans hv, l.root, l.keys, hread, fun l' hl' => ?_⟩
    rcases List.mem_cons.1 hl' with rfl | hl'
    · exact ⟨rfl, List.prefix_refl _⟩
    · obtain ⟨hroot', hkeys'⟩ := hall l' hl'
      exact ⟨hroot', hkeys'.trans hprefix⟩
  | _ => cases hroot

end Lowering

end LineScript
