import LineScript.Proofs.Grammar.Completeness
import LineScript.Proofs.Grammar.Shapes

/-!
# Programs as their lines

A list of tokens is read as a program exactly if it falls into lines that spell well-formed
expressions (`Lines`). One direction is that readings keep the tokens and give well-formed trees,
the other that what is spelled is read: an expression cannot go on where its line ends. In this form
the reading of a program can be taken apart and put together again without the functions that read
it.
-/

set_option autoImplicit false

namespace LineScript

open TokenStream

/-- The tokens from one offset up to another spell the expressions of the program, each of which
ends its line. -/
inductive Lines (tokens : List Token) : Program → Nat → Nat → Prop
  | nil {n : Nat} : Lines tokens [] n n
  | cons {n k m : Nat} {e : Expr} {rest : Program} (he : e.WellFormed)
      (hspells : Spells tokens e.yield n k)
      (hend : (ofList tokens).lineEndsBefore k = true ∨ (ofList tokens).kind k = .endOfFile)
      (hrest : Lines tokens rest k m) : Lines tokens (⟨e, (ofList tokens).spanTo n k⟩ :: rest) n m

namespace Lines

variable {tokens : List Token} {p q : Program} {n k m : Nat}

theorem append (h : Lines tokens p n m) (hrest : Lines tokens q m k) :
    Lines tokens (p ++ q) n k := by
  induction h with
  | nil => exact hrest
  | cons he hspells hend _ ih => exact .cons he hspells hend (ih hrest)

theorem spells (h : Lines tokens p n m) :
    Spells tokens (p.flatMap fun st => st.expr.yield) n m := by
  induction h with
  | nil => exact .nil
  | cons _ hspells _ _ ih => exact hspells.append ih

theorem wellFormed (h : Lines tokens p n m) : ∀ st ∈ p, st.expr.WellFormed := by
  induction h with
  | nil => exact List.forall_mem_nil _
  | cons he _ _ _ ih => exact List.forall_mem_cons.2 ⟨he, ih⟩

end Lines

namespace TokenStream

variable {tokens : List Token} {offset n m bound : Nat} {p : Program}

/-- Statements are read line by line. -/
theorem lines_of_statementsIn
    (hbound : ∀ k, offset + bound ≤ k → (ofList tokens).kind k = .endOfFile)
    (h : ((ofList tokens).statementsIn bound offset).outcome = .ok p) :
    ∃ stop, Lines tokens p offset stop ∧ (ofList tokens).kind stop = .endOfFile := by
  induction bound generalizing offset p with
  | zero =>
    obtain rfl := Except.ok.inj h
    exact ⟨offset, .nil, hbound offset (Nat.le_refl _)⟩
  | succ bound ih =>
    rw [statementsIn] at h
    split at h
    · rename_i hkind
      obtain rfl := Except.ok.inj h
      exact ⟨offset, .nil, hkind⟩
    · obtain ⟨⟨e, next⟩, he, hrest⟩ := Reading.bind_outcome h
      dsimp only at hrest
      split at hrest
      · rename_i hend
        obtain ⟨rest, hothers, hpure⟩ := Reading.bind_outcome hrest
        obtain rfl := Except.ok.inj hpure
        have hspells := (sound tokens _).expression he
        have hlt := hspells.lt
        obtain ⟨stop, hstop, hkind⟩ := ih (fun k hk => hbound k (by omega)) hothers
        exact ⟨stop, .cons ((shapes _ _).expression he) hspells hend hstop, hkind⟩
      · cases hrest

/-- Lines up to the end of file are read, with what is wrong with the literals in them. -/
theorem reads_statementsIn (h : Lines tokens p n m) (hkind : (ofList tokens).kind m = .endOfFile)
    (hbound : (ofList tokens).size ≤ n + bound) :
    Reads tokens n m ((ofList tokens).statementsIn bound n) p := by
  induction h generalizing bound with
  | @nil n =>
    have hnone := Reads.pure tokens n ([] : Program)
    cases bound with
    | zero => exact hnone
    | succ bound => rwa [statementsIn, if_pos hkind]
  | @cons n k m e rest he hspells hend _ ih =>
    have hstarts := hspells.kind_starts
    have hopen : (ofList tokens).kind n ≠ .endOfFile := by
      intro hend
      rw [hend] at hstarts
      cases hstarts
    have hlt := lt_size hopen
    have hlt' := hspells.lt
    obtain ⟨bound, rfl⟩ := Nat.exists_eq_succ_of_ne_zero (show bound ≠ 0 by omega)
    have hstop : ExpressionStops (ofList tokens) k := by
      rcases hend with hline | hfile
      · exact Or.inl hline
      · exact expressionStops_of_kind hfile (by decide)
    rw [statementsIn, if_neg hopen]
    refine Reads.bind ⟨Nat.le_of_lt hlt', reads_expression he hspells hstop⟩ ?_
    simp only [hend, if_true]
    exact (ih hkind (by omega)).bind (Reads.pure tokens m _)

end TokenStream

/-- The statements that are read are well-formed. -/
theorem Program.wellFormed_of_ofTokens {tokens : List Token} {p : Program}
    (h : (Program.ofTokens tokens).outcome = .ok p) : ∀ st ∈ p, st.expr.WellFormed := by
  obtain ⟨_, hlines, _⟩ := lines_of_statementsIn (fun k hk => kind_of_size_le (by omega)) h
  exact hlines.wellFormed

/-! ## Lists that an end of file closes -/

variable {body : List Token} {closing : Token} {p : Program}

theorem Program.ofTokens_of_lines (hclosing : closing.kind = .endOfFile)
    (h : Lines (body ++ [closing]) p 0 body.length) :
    Program.ofTokens (body ++ [closing]) = ⟨body.flatMap Token.faults, .ok p⟩ := by
  rw [← faultsIn_length body closing]
  exact (reads_statementsIn h (kind_length hclosing) (by omega)).2

/-- What is read of a list with one end of file are its lines. -/
theorem Program.lines_of_ofTokens (hclosing : closing.kind = .endOfFile)
    (hbody : ∀ t ∈ body, t.kind ≠ .endOfFile)
    (h : (Program.ofTokens (body ++ [closing])).outcome = .ok p) :
    Lines (body ++ [closing]) p 0 body.length := by
  obtain ⟨stop, hlines, hkind⟩ := lines_of_statementsIn (fun k hk => kind_of_size_le (by omega)) h
  have hspells := hlines.spells
  have hlength : stop = body.length := by
    rcases Nat.lt_trichotomy stop body.length with hlt | heq | hgt
    · have htoken : (body ++ [closing])[stop]? = some body[stop] := by
        rw [List.getElem?_append_left hlt, List.getElem?_eq_getElem hlt]
      rw [kind, token_of_getElem? htoken] at hkind
      exact absurd hkind (hbody _ (List.getElem_mem hlt))
    · exact heq
    · obtain ⟨t, ht, hend⟩ := hspells.token (Nat.zero_le _) hgt
      rw [List.getElem?_concat_length] at ht
      obtain rfl := Option.some.inj ht
      exact absurd hclosing hend
  rwa [hlength] at hlines

end LineScript
