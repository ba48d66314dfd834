import LineScript.Proofs.Code.Sites
import LineScript.Proofs.Refinement
import LineScript.Proofs.VariableSeparation
import Mathlib.Data.List.Basic

/-!
# Operations and their operands

An operation is code that reads registers computed before. `Expr.inputs` are the expressions that
are computed for it, one after the other, and `operate` is the code that reads them, as far as it
reads them: what stores the result of a compound assignment, say, comes later. The code of an
expression begins with these two (`operation_factors`).

`Uses` says what an operation makes of the values of its inputs. `operate_uses` is the one lemma
about what the code does: the values are those that the registers of the operands hold when the code
is entered. For a map it does not go without saying, since the entries are read one by one while the
map is in the making.
-/

set_option autoImplicit false

namespace LineScript

open State Emit

namespace Expr

/-- Operations with several operands, and assignments: everything that reads what it has computed
before, but for elements, negations and the logical connectives. -/
def isOperation : Expr → Bool
  | .array _ => true
  | .map _ => true
  | .call name _ => name = "print"
  | .binary _ .and _ => false
  | .binary _ .or _ => false
  | .binary _ _ _ => true
  | _ => false

/-- The container and the key of a target that is an element. -/
def place : Expr → List Expr
  | .element base key => [base, key]
  | _ => []

/-- The expressions whose values an operation uses, in the order in which they are computed. An
assignment to an element computes the container and the key behind the value. -/
def inputs : Expr → List Expr
  | .binary target .assign value => value :: target.place
  | e => e.operands

end Expr

namespace Lowering

variable {code : List Instruction} {scope after : Scope} {s t u f : State} {n : Nat}

/-! ## Operations -/

/-- The code of an operation behind that of its inputs, as far as it reads them. The operand tells
where the result is found. -/
def operate : Expr → List Operand → Emit Operand
  | .binary _ (.arith op) _, [left, right] => arith op left right
  | .binary _ (.update op) _, [current, operand] => arith op current operand
  | .binary _ (.relation op) _, [left, right] =>
    into (.relate op left.register right.register) (some .bool)
  | .binary (.element _ _) .assign _, [value, container, key] => put container key value
  | .binary (.ident name) .assign _, [value] => do
    assign name value
    let bound ← Emit.find? name
    readName name bound
  | .array items, os => finish (.array items) os
  | .map entries, os => finish (.map entries) os
  | .call name args, os => finish (.call name args) os
  | _, _ => Emit.fail .invalidTarget

/-- What an operation makes of the values of its inputs, between two states and with the result in a
register. -/
inductive Uses (s t : State) (r : Register) : Expr → List Value → Prop
  | arith {left right : Expr} {op : Arith} {a b v : Value}
      (h : a.bare.arith? op b.bare = some v.bare) (ht : t.registers.get? r = some v) :
      Uses s t r (.binary left (.arith op) right) [a, b]
  | update {target value : Expr} {op : Arith} {a b v : Value}
      (h : a.bare.arith? op b.bare = some v.bare) (ht : t.registers.get? r = some v) :
      Uses s t r (.binary target (.update op) value) [a, b]
  | relation {left right : Expr} {op : Relation} {a b : Value} {holds : Bool}
      (h : op.apply a b = .ok holds) (ht : t.registers.get? r = some (.bool holds)) :
      Uses s t r (.binary left (.relation op) right) [a, b]
  | element {base key value : Expr} {v c k new : Value}
      (h : c.bare.put? k.bare v.bare = some new.bare) (ht : t.registers.get? r = some new) :
      Uses s t r (.binary (.element base key) .assign value) [v, c, k]
  | ident {name : String} {value : Expr} {v : Value} (ht : t.registers.get? r = some v) :
      Uses s t r (.binary (.ident name) .assign value) [v]
  | array {items : List Expr} {kind : Kind} {values : List Value}
      (ht : t.registers.get? r = some (.array kind values)) : Uses s t r (.array items) values
  | map {entries : List (Expr × Expr)} {kind : Kind} {pairs : List (Value × Value)}
      (ht : t.registers.get? r =
        some (.map kind (Entries.ofList (pairs.map fun p => (p.1.key, p.2))))) :
      Uses s t r (.map entries) (pairs.flatMap fun p => [p.1, p.2])
  | print {args : List Expr} {values : List Value}
      (ht : t.sink.taken.toList = s.sink.taken.toList ++ Utf8.encode (printedLine values)) :
      Uses s t r (.call "print" args) values

/-! ## The code of operations -/

theorem exprs_length {es : List Expr} {a : Emitted (List Operand)} (h : exprs es n scope = .ok a) :
    a.value.length = es.length := by
  induction es generalizing n scope a with
  | nil =>
    obtain rfl := Except.ok.inj h
    rfl
  | cons e rest ih =>
    rw [exprs] at h
    obtain ⟨x, y, _, hy, rfl⟩ := bind_eq_ok h
    obtain ⟨z, w, hz, hw, rfl⟩ := bind_eq_ok hy
    obtain rfl := Except.ok.inj hw
    exact congrArg Nat.succ (ih hz)

/-- The code of an expression begins with that of its inputs, and goes on with what reads them. -/
def Factors (e : Expr) (n : Nat) (scope : Scope) (a : Emitted Operand) : Prop :=
  ∃ b c rest, exprs e.inputs n scope = .ok b ∧
    operate e b.value (n + b.code.length) b.scope = .ok c ∧ a.code = b.code ++ c.code ++ rest

/-- For most operations, reading is all there is to finish with. -/
theorem factors_of_finish {e : Expr} {a : Emitted Operand} (hinputs : e.inputs = e.operands)
    (hoperate : ∀ os, os.length = e.inputs.length → finish e os = operate e os)
    (h : expr e n scope = .ok a) : Factors e n scope a := by
  obtain ⟨b, c, hb, hc, rfl⟩ := bind_eq_ok (expr_factors h)
  rw [← hinputs] at hb
  rw [hoperate _ (exprs_length hb)] at hc
  exact ⟨b, c, [], hb, hc, (List.append_nil _).symm⟩

/-- The code of an assignment is that of its value and that of the store. -/
theorem assign_factors {target value : Expr} {a : Emitted Operand}
    (h : expr (.binary target .assign value) n scope = .ok a) :
    ∃ v c, expr value n scope = .ok v ∧ store target v.value (n + v.code.length) v.scope = .ok c ∧
      a.code = v.code ++ c.code := by
  rw [expr] at h
  split at h
  · obtain ⟨v, b, hv, hb, rfl⟩ := bind_eq_ok h
    obtain ⟨c, d, hc, hd, rfl⟩ := bind_eq_ok hb
    obtain rfl := Except.ok.inj hd
    exact ⟨v, c, hv, hc, congrArg _ (List.append_nil _)⟩
  · cases h

theorem update_factors {target value : Expr} {op : Arith} {a : Emitted Operand}
    (h : expr (.binary target (.update op) value) n scope = .ok a) :
    ∃ current operand v c, expr target n scope = .ok current ∧
      expr value (n + current.code.length) current.scope = .ok operand ∧
      arith op current.value operand.value
        (n + (current.code ++ operand.code).length) operand.scope = .ok v ∧
      store target v.value (n + (current.code ++ operand.code ++ v.code).length) v.scope = .ok c ∧
      a.code = current.code ++ operand.code ++ v.code ++ c.code := by
  rw [expr] at h
  split at h
  · obtain ⟨current, b, hcurrent, hb, rfl⟩ := bind_eq_ok h
    obtain ⟨operand, c, hoperand, hc, rfl⟩ := bind_eq_ok hb
    obtain ⟨v, d, hv, hd, rfl⟩ := bind_eq_ok hc
    obtain ⟨stored, e, hstored, he, rfl⟩ := bind_eq_ok hd
    obtain rfl := Except.ok.inj he
    refine ⟨current, operand, v, stored, hcurrent, hoperand, ?_, ?_, by simp⟩
    · simpa [Nat.add_assoc] using hv
    · simpa [Nat.add_assoc] using hstored
  · cases h

theorem operation_factors {e : Expr} {a : Emitted Operand} (he : e.isOperation = true)
    (h : expr e n scope = .ok a) : Factors e n scope a := by
  cases e with
  | array items => exact factors_of_finish rfl (fun _ _ => rfl) h
  | map entries => exact factors_of_finish rfl (fun _ _ => rfl) h
  | call name args => exact factors_of_finish rfl (fun _ _ => rfl) h
  | binary left op right =>
    cases op with
    | and => cases he
    | or => cases he
    | arith op =>
      refine factors_of_finish rfl (fun os hos => ?_) h
      obtain ⟨l, r, rfl⟩ := List.length_eq_two.1 hos
      rfl
    | relation op =>
      refine factors_of_finish rfl (fun os hos => ?_) h
      obtain ⟨l, r, rfl⟩ := List.length_eq_two.1 hos
      rfl
    | update op =>
      obtain ⟨b, c, hb, hc, rfl⟩ := bind_eq_ok (expr_factors h)
      obtain ⟨l, r, hos⟩ := List.length_eq_two.1 (exprs_length hb)
      rw [hos] at hc
      obtain ⟨d, rest, hd, _, rfl⟩ := bind_eq_ok hc
      refine ⟨b, d, rest.code, hb, by rw [hos]; exact hd, ?_⟩
      exact (List.append_assoc _ _ _).symm
    | assign =>
      obtain ⟨v, c, hv, hc, hcode⟩ := assign_factors h
      cases left with
      | ident name =>
        rw [store] at hc
        obtain ⟨bound, hbound⟩ := find?_of_assign hc
        refine ⟨_, ⟨bound, c.code, c.scope⟩, [], exprs_one hv, ?_, ?_⟩
        · have hread : (do let bound ← Emit.find? name; readName name bound)
              (n + v.code.length + c.code.length) c.scope = .ok ⟨bound, [], c.scope⟩ := by
            refine bind_ok (a := ⟨some bound, [], c.scope⟩) ?_ (b := ⟨bound, [], c.scope⟩) rfl
            rw [← hbound]
            rfl
          have hall :=
            bind_ok (f := fun _ => (do let bound ← Emit.find? name; readName name bound)) hc hread
          rw [List.append_nil] at hall
          exact hall
        · rw [hcode, List.append_nil]
      | element base key =>
        rw [store] at hc
        obtain ⟨b, d, hb, hd, rfl⟩ := bind_eq_ok hc
        obtain ⟨k, f, hk, hf, rfl⟩ := bind_eq_ok hd
        obtain ⟨new, rest, hnew, _, rfl⟩ := bind_eq_ok hf
        refine ⟨_, new, rest.code, exprs_cons hv (exprs_two hb hk), ?_, ?_⟩
        · simp only [List.length_append, ← Nat.add_assoc]
          exact hnew
        · rw [hcode]
          simp only [List.append_assoc]
      | _ =>
        rw [store] at hc
        · cases hc
        all_goals simp
  | _ => cases he

/-! ## What operations read -/

/-- Entries are put into a map that is in the making. The keys and values are those that the
registers held in the beginning, since no entry is read from the register of the map. -/
theorem putEntries_ends {map : Register} {pairs : List (Operand × Operand)} {kind : Kind}
    {entries : List (String × Value)} (hne : ∀ p ∈ pairs, p.1.register ≠ map ∧ p.2.register ≠ map)
    (hv : s.registers.get? map = some (.map kind entries)) :
    ends code (putEntries map pairs)
      (fun _ _ t => ∃ (values : List (Value × Value)) (new : Kind),
        pairs.map (fun p => (s.registers.get? p.1.register, s.registers.get? p.2.register)) =
          values.map (fun p => (some p.1, some p.2)) ∧
        t.registers.get? map = some (.map new ((values.map fun p => (p.1.key, p.2)).foldl
          (fun es p => Entries.insert p.1 p.2 es) entries))) scope s := by
  induction pairs generalizing s kind entries with
  | nil =>
    rw [putEntries]
    exact wp_pure ⟨[], kind, rfl, hv⟩
  | cons p rest ih =>
    obtain ⟨hkey, hvalue⟩ := hne _ List.mem_cons_self
    have hrest : ∀ q ∈ rest, q.1.register ≠ map ∧ q.2.register ≠ map :=
      fun q hq => hne q (List.mem_cons_of_mem _ hq)
    rw [putEntries]
    refine wp_bind (wp_write (fun _ => trivial) (fun _ _ => trivial) fun effect he => ?_)
    obtain ⟨m, k, u, new, hget, hk, hu, hnew, rfl⟩ := Instruction.effect_setEntry he
    obtain rfl : Value.map kind entries = m := Option.some.inj (hv.symm.trans hget)
    obtain ⟨_, _, heq, rfl⟩ := Value.setEntry_eq_ok_iff.1 hnew
    cases heq
    refine ⟨map, _, rfl, wp_mono (ih hrest (wrote_get?_self _ _ _)) ?_⟩
    rintro _ after t _ ⟨values, last, hvalues, hlast⟩
    refine ⟨(k, u) :: values, last, ?_, hlast⟩
    rw [List.map_cons, List.map_cons, hk, hu, ← hvalues]
    refine congrArg _ (List.map_congr_left fun q hq => ?_)
    obtain ⟨h1, h2⟩ := hrest q hq
    rw [wrote_get?_of_ne h1, wrote_get?_of_ne h2]

theorem assign_ends {name : String} {value : Operand} {Q : Unit → Scope → State → Prop}
    (h : ∀ register after v, s.registers.get? value.register = some v →
      after.find? name = some ⟨register, value.kind⟩ → Q () after (s.wrote register v)) :
    ends code (assign name value) Q scope s := by
  have hcopy : ∀ {register : Register} {mid : Scope}, ends code (do
      Emit.instruction (.copy value.register register)
      Emit.bindName name ⟨register, value.kind⟩) Q mid s := by
    intro register mid
    refine wp_bind (wp_write (fun _ => trivial) (fun _ _ => trivial) fun effect he => ?_)
    obtain ⟨v, hv, rfl⟩ := Instruction.effect_copy he
    exact ⟨_, v, rfl, wp_bindName (h _ _ v hv ((Scope.find?_bind _ _ _ _).trans (if_pos rfl)))⟩
  refine wp_bind (wp_find? ?_)
  cases scope.find? name with
  | none => exact wp_bind (wp_fresh hcopy)
  | some b => exact wp_bind (wp_target hcopy)

theorem pairUp_flatten {os : List Operand} {count : Nat} (h : os.length = 2 * count) :
    (pairUp os).flatMap (fun p => [p.1, p.2]) = os := by
  induction os using pairUp.induct generalizing count with
  | case1 key value rest ih =>
    have hrest : rest.length = 2 * (count - 1) := by
      simp only [List.length_cons] at h
      omega
    rw [pairUp, List.flatMap_cons, ih hrest]
    rfl
  | case2 os hos =>
    rcases os with _ | ⟨o, _ | ⟨q, rest⟩⟩
    · rfl
    · simp only [List.length_cons, List.length_nil] at h
      omega
    · exact absurd rfl (hos o q rest)

theorem map_uses {entries : List (Expr × Expr)} {os : List Operand}
    (hlen : os.length = (Expr.map entries).inputs.length)
    (hlt : ∀ o ∈ os, o.register < scope.registers) :
    ends code (finish (.map entries) os)
      (fun o _ t => ∃ values, os.map (fun o => s.registers.get? o.register) = values.map some ∧
        Uses s t o.register (.map entries) values) scope s := by
  have hlen' : os.length = 2 * entries.length := by
    rw [hlen]
    simp [Expr.inputs, Expr.operands, List.length_flatMap, List.map_const', Nat.mul_comm]
  refine wp_bind (into_ends fun effect he => ?_)
  obtain rfl := Except.ok.inj he
  refine ⟨_, rfl, ?_⟩
  -- Keys and values are in older registers than the map.
  have hold : ∀ p ∈ pairUp os, p.1.register < scope.registers ∧ p.2.register < scope.registers :=
    fun p hp => ⟨hlt _ (mem_pairUp hp).1, hlt _ (mem_pairUp hp).2⟩
  refine wp_bind (wp_mono (putEntries_ends (fun p hp =>
    ⟨Nat.ne_of_lt (hold p hp).1, Nat.ne_of_lt (hold p hp).2⟩) (wrote_get?_self _ _ _)) ?_)
  rintro _ after t _ ⟨values, new, hvalues, hnew⟩
  refine wp_pure ⟨_, ?_, .map hnew⟩
  have hread :
      (pairUp os).map (fun p => (s.registers.get? p.1.register, s.registers.get? p.2.register)) =
        values.map fun p => (some p.1, some p.2) := by
    rw [← hvalues]
    refine List.map_congr_left fun p hp => ?_
    rw [wrote_get?_of_ne (Nat.ne_of_lt (hold p hp).1),
      wrote_get?_of_ne (Nat.ne_of_lt (hold p hp).2)]
  have hflat := congrArg (fun ps => ps.flatMap fun p => [p.1, p.2]) hread
  simp only [List.flatMap_map] at hflat
  rw [← pairUp_flatten hlen', List.map_flatMap, List.map_flatMap]
  exact hflat

/-- The instructions of an operation use what the registers of its operands hold when they are
entered. -/
theorem operate_uses {e : Expr} {os : List Operand} (he : e.isOperation = true)
    (hlen : os.length = e.inputs.length) (hlt : ∀ o ∈ os, o.register < scope.registers) :
    ends code (operate e os)
      (fun o _ t => ∃ values, os.map (fun o => s.registers.get? o.register) = values.map some ∧
        Uses s t o.register e values) scope s := by
  cases e with
  | array items =>
    refine into_ends fun effect heff => ?_
    obtain ⟨values, hvalues, rfl⟩ := Instruction.effect_makeArray heff
    rw [List.map_map] at hvalues
    exact ⟨_, rfl, values, hvalues, .array (wrote_get?_self _ _ _)⟩
  | map entries => exact map_uses hlen hlt
  | call name args =>
    obtain rfl : name = "print" := by simpa [Expr.isOperation] using he
    refine wp_bind
      (wp_print (fun _ => trivial) (fun _ _ => trivial) trivial fun values sink hvalues hsink => ?_)
    rw [List.map_map] at hvalues
    exact wp_bind (wp_fresh (wp_pure ⟨values, hvalues, .print hsink⟩))
  | binary left op right =>
    cases op with
    | and => cases he
    | or => cases he
    | arith op =>
      obtain ⟨l, r, rfl⟩ := List.length_eq_two.1 hlen
      refine arith_ends fun kind a b v ha hb hv => ⟨[a, b], ?_, .arith hv (wrote_get?_self _ _ _)⟩
      simp [ha, hb]
    | update op =>
      obtain ⟨l, r, rfl⟩ := List.length_eq_two.1 hlen
      refine arith_ends fun kind a b v ha hb hv => ⟨[a, b], ?_, .update hv (wrote_get?_self _ _ _)⟩
      simp [ha, hb]
    | relation op =>
      obtain ⟨l, r, rfl⟩ := List.length_eq_two.1 hlen
      refine into_ends fun effect heff => ?_
      obtain ⟨a, b, holds, ha, hb, hholds, rfl⟩ := Instruction.effect_relate heff
      refine ⟨_, rfl, [a, b], ?_, .relation hholds (wrote_get?_self _ _ _)⟩
      simp [ha, hb]
    | assign =>
      cases left with
      | ident name =>
        obtain ⟨o, rfl⟩ := List.length_eq_one_iff.1 hlen
        refine wp_bind (assign_ends fun register after v hv hbound => wp_bind (wp_find? ?_))
        rw [hbound]
        exact wp_pure ⟨[v], by simp [hv], .ident (wrote_get?_self _ _ _)⟩
      | element base key =>
        obtain ⟨v, c, k, rfl⟩ := List.length_eq_three.1 hlen
        refine put_ends fun kind cv kv vv new hc hk hv hput => ⟨[vv, cv, kv], ?_, .element hput ?_⟩
        · simp [hv, hc, hk]
        · exact wrote_get?_self _ _ _
      | _ =>
        rw [operate]
        · exact wp_fail
        all_goals simp
  | _ => cases he

end Lowering

end LineScript
