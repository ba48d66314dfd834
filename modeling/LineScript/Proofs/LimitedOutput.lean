import LineScript.Proofs.Machine.Steps
import Mathlib.Data.List.Infix

/-!
# A limited sink takes the first bytes of the output

The same run twice, once with a sink that takes everything and once with one that takes `n` bytes.
As long as not more than `n` bytes have been printed in all, the two runs go through the same states
but for the limit of the sink (`State.capped`). The first line that does not fit any more parts
them: the free run goes on, the limited one has taken exactly `n` bytes and fails there
(`Routine.Overflows`). What is to be shown is that this is the only way to part.

Printing is one step here. That it does not matter in how many pieces a line is written is
`Sink.writeAll_eq`.
-/

set_option autoImplicit false

namespace LineScript

/-! ## Writing in pieces -/

namespace Sink

/-- Writes pieces one after the other, up to the first one that is not taken in full. Says whether
all were taken. -/
def writeAll (s : Sink) : List (List UInt8) → Sink × Bool
  | [] => (s, true)
  | piece :: rest =>
    if piece.length ≤ s.room piece then (s.take piece).writeAll rest else (s.take piece, false)

theorem ext_toList {s t : Sink} (htaken : s.taken.toList = t.taken.toList)
    (hlimit : s.limit = t.limit) : s = t := by
  obtain ⟨taken, limit⟩ := s
  obtain ⟨taken', limit'⟩ := t
  rw [Array.toList_inj] at htaken
  subst htaken hlimit
  rfl

theorem take_nil (s : Sink) : s.take [] = s := by
  apply ext_toList
  · rw [take_eq_append, List.take_nil, List.append_nil]
  · rfl

/-- What was taken in full is there behind what was taken before. -/
theorem taken_of_le {s : Sink} {bytes : List UInt8} (h : bytes.length ≤ s.room bytes) :
    (s.take bytes).taken.toList = s.taken.toList ++ bytes := by
  rw [take_eq_append, List.take_of_length_le h]

/-- Behind a piece that was taken in full there is less room by as much. -/
theorem room_append {s : Sink} {piece : List UInt8} (h : piece.length ≤ s.room piece)
    (rest : List UInt8) : s.room (piece ++ rest) = piece.length + (s.take piece).room rest := by
  have hsize : (s.take piece).taken.size = s.taken.size + piece.length := by
    rw [← Array.length_toList, taken_of_le h, List.length_append, Array.length_toList]
  have hlimit : (s.take piece).limit = s.limit := rfl
  simp only [room] at h
  simp only [room, hsize, hlimit]
  cases hs : s.limit with
  | none => exact List.length_append
  | some limit =>
    rw [hs] at h
    dsimp only at h ⊢
    omega

theorem take_append {s : Sink} {piece : List UInt8} (h : piece.length ≤ s.room piece)
    (rest : List UInt8) : (s.take piece).take rest = s.take (piece ++ rest) := by
  apply ext_toList
  · rw [take_eq_append, taken_of_le h, take_eq_append, room_append h, List.take_length_add_append,
      List.append_assoc]
  · rfl

/-- A piece that is not taken in full leaves no room for another. -/
theorem take_of_lt {s : Sink} {piece : List UInt8} (h : ¬ piece.length ≤ s.room piece)
    (rest : List UInt8) :
    s.take (piece ++ rest) = s.take piece ∧ ¬ (piece ++ rest).length ≤ s.room (piece ++ rest) := by
  have hroom : s.room (piece ++ rest) = s.room piece := by
    simp only [room] at h ⊢
    cases hs : s.limit with
    | none =>
      rw [hs] at h
      exact absurd (Nat.le_refl _) h
    | some limit => rfl
  constructor
  · apply ext_toList
    · rw [take_eq_append, take_eq_append, hroom, List.take_append_of_le_length (by omega)]
    · rfl
  · rw [hroom, List.length_append]
    omega

/-- In how many pieces bytes are written makes no difference. -/
theorem writeAll_eq (s : Sink) (pieces : List (List UInt8)) :
    s.writeAll pieces = (s.take pieces.flatten,
      decide (pieces.flatten.length ≤ s.room pieces.flatten)) := by
  induction pieces generalizing s with
  | nil =>
    rw [writeAll, List.flatten_nil, take_nil]
    simp
  | cons piece rest ih =>
    rw [writeAll, List.flatten_cons]
    by_cases h : piece.length ≤ s.room piece
    · rw [if_pos h, ih, take_append h, room_append h, List.length_append]
      simp only [Nat.add_le_add_iff_left]
    · obtain ⟨htake, hroom⟩ := take_of_lt h rest.flatten
      rw [if_neg h, htake, decide_eq_false hroom]

end Sink

/-- Nothing but a print instruction prints. -/
theorem Instruction.print_of_effect {rs : Registers} {line : String} (i : Instruction)
    (h : i.effect rs = .ok (.print line)) : ∃ args, i = .print args := by
  cases i with
  | print args => exact ⟨args, rfl⟩
  | jump target => cases h
  | jumpIf condition target =>
    obtain ⟨v, _, heffect⟩ := effect_jumpIf h
    split at heffect <;> cases heffect
  | jumpUnless condition target =>
    obtain ⟨v, _, heffect⟩ := effect_jumpUnless h
    split at heffect <;> cases heffect
  | _ => cases allows_of_effect h

namespace State

variable {code : List Instruction} {n k : Nat} {s t u : State} {i : Instruction}
    {fault : Option Fault}

/-! ## The same state with a limited sink -/

/-- The same state with a sink that takes `n` bytes in all. -/
def capped (n : Nat) (s : State) : State := { s with sink := { s.sink with limit := some n } }

@[simp]
theorem capped_next (n : Nat) (s : State) : (s.capped n).next = s.next := rfl

@[simp]
theorem capped_registers (n : Nat) (s : State) : (s.capped n).registers = s.registers := rfl

@[simp]
theorem capped_advance (n : Nat) (s : State) : (s.capped n).advance = s.advance.capped n := rfl

/-- An instruction does not change the limit of the sink. -/
theorem limit_of_execute (h : s.execute i = (t, fault)) : t.sink.limit = s.sink.limit := by
  have ht : t = (s.execute i).1 := by rw [h]
  rw [ht, execute]
  split
  · rfl
  · rename_i effect _
    cases effect with
    | print line => rfl
    | _ => rfl

theorem Steps.limit (h : Steps code n s t) : t.sink.limit = s.sink.limit := by
  induction h with
  | zero => rfl
  | succ hstep _ ih =>
    obtain ⟨i, _, hi⟩ := hstep
    rw [ih, limit_of_execute hi]
    rfl

/-- Where everything is taken, printing does not fail. -/
theorem perform_print_of_free (h : s.sink.limit = none) (line : String) :
    s.perform (.print line) = ({ s with sink := ⟨s.sink.taken ++ Utf8.encode line, none⟩ },
      none) := by
  have hroom := Sink.room_of_limit_none h (Utf8.encode line)
  simp only [perform, Sink.take, hroom, Nat.le_refl, if_true, List.take_length, h]

/-- If in the end not more than `n` bytes have been printed, the instruction does the same under a
limit of `n`. -/
theorem execute_capped (h : s.sink.limit = none) (hi : s.execute i = (t, fault))
    (ht : t.sink.taken.size ≤ n) : (s.capped n).execute i = (t.capped n, fault) := by
  rw [execute] at hi ⊢
  rw [capped_registers]
  cases heffect : i.effect s.registers with
  | error e =>
    rw [heffect] at hi
    obtain ⟨rfl, rfl⟩ := Prod.mk.inj hi
    rfl
  | ok effect =>
    rw [heffect] at hi
    dsimp only at hi ⊢
    cases effect with
    | print line =>
      rw [perform_print_of_free h] at hi
      obtain ⟨rfl, rfl⟩ := Prod.mk.inj hi
      -- The line fits, so the limit is not felt.
      have hroom : (Utf8.encode line).length ≤ (s.capped n).sink.room (Utf8.encode line) := by
        rw [← Array.length_toList, Array.toList_appendList, List.length_append,
          Array.length_toList] at ht
        show _ ≤ n - s.sink.taken.size
        omega
      simp only [perform, if_pos hroom, Sink.take, List.take_of_length_le hroom]
      rfl
    | _ =>
      obtain ⟨rfl, rfl⟩ := Prod.mk.inj hi
      rfl

/-- Where everything is taken, a fault leaves the output alone. -/
theorem sink_of_fault {f : Fault} (h : s.sink.limit = none) (hf : s.execute i = (t, some f)) :
    t.sink = s.sink := by
  rw [execute] at hf
  cases heffect : i.effect s.registers with
  | error e =>
    rw [heffect] at hf
    obtain ⟨rfl, _⟩ := Prod.mk.inj hf
    rfl
  | ok effect =>
    rw [heffect] at hf
    dsimp only at hf
    cases effect with
    | print line =>
      rw [perform_print_of_free h] at hf
      cases (Prod.mk.inj hf).2
    | _ => cases (Prod.mk.inj hf).2

/-- A line that does not fit into a limit of `n` any more. Of all bytes printed the first `n` are
taken, and the instruction fails. -/
theorem execute_overflow (hs : s.sink.taken.size ≤ n) {line : String}
    (hi : i.effect s.registers = .ok (.print line))
    (hline : n < s.sink.taken.size + (Utf8.encode line).length) :
    ∃ v, (s.capped n).execute i = (v, some .outputClosed) ∧
      v.sink.taken.toList = (s.sink.taken.toList ++ Utf8.encode line).take n := by
  have hroom : (s.capped n).sink.room (Utf8.encode line) = n - s.sink.taken.size := rfl
  refine ⟨{ s.capped n with sink := (s.capped n).sink.take (Utf8.encode line) }, ?_, ?_⟩
  · rw [execute, capped_registers, hi]
    simp only [perform, hroom]
    rw [if_neg (by omega)]
  · show ((s.capped n).sink.take (Utf8.encode line)).taken.toList = _
    have htaken : s.sink.taken.toList.take n = s.sink.taken.toList := by
      apply List.take_of_length_le
      rwa [Array.length_toList]
    rw [Sink.take_eq_append, hroom, List.take_append, htaken, Array.length_toList]
    rfl

/-- Only printing makes the output longer. -/
theorem prints_of_execute (h : s.sink.limit = none) (hi : s.execute i = (t, none))
    (hlt : s.sink.taken.size < t.sink.taken.size) :
    ∃ args line, i = .print args ∧ i.effect s.registers = .ok (.print line) ∧
      t.sink.taken.toList = s.sink.taken.toList ++ Utf8.encode line := by
  obtain ⟨effect, heffect, hperform⟩ := execute_eq_none_iff.1 hi
  cases effect with
  | print line =>
    rw [perform_print_of_free h] at hperform
    obtain ⟨rfl, _⟩ := Prod.mk.inj hperform
    obtain ⟨args, rfl⟩ := i.print_of_effect heffect
    exact ⟨args, line, rfl, heffect, Array.toList_appendList⟩
  | _ =>
    obtain ⟨rfl, _⟩ := Prod.mk.inj hperform
    exact absurd hlt (Nat.lt_irrefl _)

/-! ## Both runs -/

/-- The limited run keeps up with the free one while not more than `n` bytes are printed. -/
theorem Steps.capped (h : Steps code k s t) (hs : s.sink.limit = none)
    (ht : t.sink.taken.size ≤ n) : Steps code k (s.capped n) (t.capped n) := by
  induction h with
  | zero => exact .zero
  | @succ k s u t hstep hrest ih =>
    obtain ⟨i, hi, hu⟩ := hstep
    have hlimit : u.sink.limit = none := (limit_of_execute hu).trans hs
    -- What is printed on the way is not more than what is printed in the end.
    have hle : u.sink.taken.size ≤ t.sink.taken.size := hrest.taken.length_le
    refine .succ ⟨i, hi, ?_⟩ (ih hlimit ht)
    rw [capped_advance]
    exact execute_capped hs hu (by omega)

/-- Where in the end more than `n` bytes have been printed, there is a line that takes the output
beyond `n`. -/
theorem Steps.overflow (h : Steps code k s t) (hlimit : s.sink.limit = none)
    (hs : s.sink.taken.size ≤ n) (ht : n < t.sink.taken.size) :
    ∃ j < k, ∃ u args line, Steps code j s u ∧ code[u.next]? = some (.print args) ∧
      (Instruction.print args).effect u.registers = .ok (.print line) ∧ u.sink.taken.size ≤ n ∧
      n < u.sink.taken.size + (Utf8.encode line).length ∧
      u.sink.taken.toList ++ Utf8.encode line <+: t.sink.taken.toList := by
  induction h with
  | zero => omega
  | @succ k s u t hstep hrest ih =>
    have hfirst := hstep
    obtain ⟨i, hi, hu⟩ := hstep
    by_cases hn : u.sink.taken.size ≤ n
    · obtain ⟨j, hj, v, args, line, hv, hprints⟩ := ih ((limit_of_execute hu).trans hlimit) hn ht
      exact ⟨j + 1, by omega, v, args, line, .succ hfirst hv, hprints⟩
    · -- The first step does it already.
      have hlt : s.advance.sink.taken.size < u.sink.taken.size := by
        rw [advance_sink]
        omega
      have hfree : s.advance.sink.limit = none := hlimit
      obtain ⟨args, line, rfl, heffect, htaken⟩ := prints_of_execute hfree hu hlt
      have hlength := congrArg List.length htaken
      rw [List.length_append, Array.length_toList, Array.length_toList, advance_sink] at hlength
      refine ⟨0, by omega, s, args, line, .zero, hi, heffect, hs, by omega, ?_⟩
      rw [advance_sink] at htaken
      rw [← htaken]
      exact hrest.taken

end State

namespace Routine

open State

variable {r : Routine} {n k j : Nat} {u t : State} {line : String} {a : RunResult}

/-- With nothing limited, `k` instructions lead to a state in which a line is printed that takes the
output beyond `n` bytes. All that was printed before is not more, so it is the first line that
does. -/
structure Overflows (r : Routine) (n k : Nat) (u : State) (line : String) : Prop where
  steps : Steps r.code k (r.start (.new none)) u
  prints : ∃ args, r.code[u.next]? = some (.print args) ∧
    (Instruction.print args).effect u.registers = .ok (.print line)
  before : u.sink.taken.size ≤ n
  beyond : n < u.sink.taken.size + (Utf8.encode line).length

theorem start_capped (r : Routine) (n : Nat) :
    (r.start (.new none)).capped n = r.start (.new (some n)) := rfl

/-- The output that a run ends with is that of a state it has passed. -/
theorem Ends.passed (h : r.Ends (.new none) k a) :
    ∃ j ≤ k, ∃ t, Steps r.code j (r.start (.new none)) t ∧ a.output = t.sink.taken.toList := by
  cases h with
  | @finished _ t hsteps _ => exact ⟨k, Nat.le_refl k, t, hsteps, rfl⟩
  | @failed m u t i fault hsteps _ hf =>
    have hsink : t.sink = u.sink := sink_of_fault (s := u.advance) hsteps.limit hf
    refine ⟨m, by omega, u, hsteps, ?_⟩
    rw [← hsink]

/-- A run that prints not more than `n` bytes ends in the same way under a limit of `n`. -/
theorem Ends.capped (h : r.Ends (.new none) k a) (ha : a.output.length ≤ n) :
    r.Ends (.new (some n)) k a := by
  cases h with
  | @finished _ t hsteps hend =>
    have hcapped := hsteps.capped rfl (Array.length_toList ▸ ha)
    rw [start_capped] at hcapped
    have hends := Ends.finished hcapped hend
    exact hends
  | @failed m u t i fault hsteps hi hf =>
    have hlimit : u.advance.sink.limit = none := hsteps.limit
    have hsink : t.sink = u.sink := sink_of_fault (s := u.advance) hlimit hf
    have hsize : u.sink.taken.size ≤ n := by
      rwa [hsink, Array.length_toList] at ha
    have hcapped := hsteps.capped rfl hsize
    rw [start_capped] at hcapped
    have hfails := execute_capped hlimit hf (n := n) (by rwa [hsink])
    have hends := Ends.failed hcapped hi hfails
    exact hends

/-- Under the limit the run ends at the line that goes beyond it. -/
theorem Overflows.ends (h : r.Overflows n k u line) :
    r.Ends (.new (some n)) (k + 1) ⟨.error (.instruction u.next "Print" .outputClosed),
      (u.sink.taken.toList ++ Utf8.encode line).take n⟩ := by
  obtain ⟨args, hi, heffect⟩ := h.prints
  obtain ⟨v, hv, htaken⟩ := execute_overflow (s := u.advance) h.before heffect h.beyond
  have hcapped := h.steps.capped rfl h.before
  rw [start_capped] at hcapped
  have hends := Ends.failed hcapped hi hv
  rw [htaken] at hends
  exact hends

theorem overflows_of_steps (h : Steps r.code j (r.start (.new none)) t)
    (hlt : n < t.sink.taken.size) :
    ∃ k < j, ∃ u line, r.Overflows n k u line ∧
      (u.sink.taken.toList ++ Utf8.encode line).take n = t.sink.taken.toList.take n := by
  obtain ⟨k, hk, u, args, line, hu, hi, heffect, hbefore, hbeyond, hlater⟩ :=
    h.overflow rfl (Nat.zero_le n) hlt
  refine ⟨k, hk, u, line, ⟨hu, ⟨args, hi, heffect⟩, hbefore, hbeyond⟩, ?_⟩
  have hle : n ≤ (u.sink.taken.toList ++ Utf8.encode line).length := by
    rw [List.length_append, Array.length_toList]
    omega
  have hlonger := hlater.length_le
  apply (hlater.take n).eq_of_length
  rw [List.length_take, List.length_take]
  omega

/-- A run that prints not more than `n` bytes is the same under a limit of `n`, also if it is
stopped. -/
theorem run_capped {limit : Option Nat} (h : (r.run limit (.new none)).output.length ≤ n) :
    r.run limit (.new (some n)) = r.run limit (.new none) := by
  rcases r.ends_or_steps (.new none) (limit.getD r.unlimited) with ⟨k, hk, a, ha⟩ | ⟨t, ht, hi⟩
  · have hfree : r.run limit (.new none) = a := ha.run hk
    rw [hfree] at h ⊢
    exact (ha.capped h).run hk
  · have hfree := run_of_steps ht hi rfl
    rw [hfree, Array.length_toList] at h
    have hcapped := ht.capped rfl h
    rw [start_capped] at hcapped
    rw [hfree]
    exact run_of_steps hcapped hi rfl

/-- Whether a run ends or is stopped, it has passed a state with all of its output. -/
theorem run_passed (r : Routine) (limit : Option Nat) :
    ∃ j ≤ limit.getD r.unlimited, ∃ t, Steps r.code j (r.start (.new none)) t ∧
      (r.run limit (.new none)).output = t.sink.taken.toList := by
  rcases r.ends_or_steps (.new none) (limit.getD r.unlimited) with ⟨k, hk, a, ha⟩ | ⟨t, ht, hi⟩
  · obtain ⟨j, hj, t, ht, houtput⟩ := ha.passed
    refine ⟨j, Nat.le_trans hj hk, t, ht, ?_⟩
    rw [ha.run hk, houtput]
  · refine ⟨_, Nat.le_refl _, t, ht, ?_⟩
    rw [run_of_steps ht hi rfl]

/-- **A limited sink takes the first bytes of the output.** If a run prints not more than `n` bytes,
a sink that takes only `n` makes no difference to it. Otherwise the sink takes the first `n`, and
the run fails at the first line that goes beyond them. The same holds of the run that no limit of
instructions stops, and it does not matter in which pieces a line is written. -/
theorem limited_sink_first_bytes (r : Routine) (limit : Option Nat) (n : Nat) :
    ((r.run limit (.new none)).output.length ≤ n →
      r.run limit (.new (some n)) = r.run limit (.new none)) ∧
      (n < (r.run limit (.new none)).output.length →
        ∃ k u line, r.Overflows n k u line ∧ (∀ m, limit = some m → k < m) ∧
          r.run limit (.new (some n)) = ⟨.error (.instruction u.next "Print" .outputClosed),
            (r.run limit (.new none)).output.take n⟩) ∧
      (∀ k a, r.Ends (.new none) k a → a.output.length ≤ n → r.Ends (.new (some n)) k a) ∧
      (∀ k u line, r.Overflows n k u line →
        r.Ends (.new (some n)) (k + 1) ⟨.error (.instruction u.next "Print" .outputClosed),
          (u.sink.taken.toList ++ Utf8.encode line).take n⟩) ∧
      ∀ (s : State) (line : String) (pieces : List (List UInt8)),
        pieces.flatten = Utf8.encode line →
        s.perform (.print line) = ({ s with sink := (s.sink.writeAll pieces).1 },
          if (s.sink.writeAll pieces).2 then none else some .outputClosed) := by
  refine ⟨run_capped, fun hlt => ?_, fun k a h ha => h.capped ha, fun k u line h => h.ends,
    fun s line pieces hp => ?_⟩
  · obtain ⟨j, hj, t, ht, houtput⟩ := r.run_passed limit
    rw [houtput, Array.length_toList] at hlt
    obtain ⟨k, hk, u, line, hover, htake⟩ := overflows_of_steps ht hlt
    refine ⟨k, u, line, hover, fun m hm => ?_, ?_⟩
    · rw [hm, Option.getD_some] at hj
      omega
    · rw [houtput, ← htake]
      exact hover.ends.run (by omega)
  · rw [Sink.writeAll_eq, hp]
    simp only [State.perform, decide_eq_true_eq]

/-- `print("ab")` twice. -/
def printTwice : Routine := ⟨[.load (.string "ab") 0, .print [0], .print [0]], 1⟩

/-- Of the five bytes that are taken the last two are the text of the second line. Its newline is
the sixth byte. -/
theorem limited_sink_first_bytes_newline :
    (printTwice.run none (.new none)).output = [97, 98, 10, 97, 98, 10] ∧
    ∃ u, printTwice.run none (.new (some 5)) =
        ⟨.error (.instruction u "Print" .outputClosed), [97, 98, 10, 97, 98]⟩ ∧ u = 2 := by
  have houtput : (printTwice.run none (.new none)).output = [97, 98, 10, 97, 98, 10] := rfl
  have hlength : 5 < (printTwice.run none (.new none)).output.length := by
    rw [houtput]
    decide
  obtain ⟨k, u, line, _, _, hrun⟩ := (limited_sink_first_bytes printTwice none 5).2.1 hlength
  rw [houtput] at hrun
  have hresult : (printTwice.run none (.new (some 5))).result =
      .error (.instruction 2 "Print" .outputClosed) := rfl
  refine ⟨houtput, u.next, hrun, ?_⟩
  rw [hrun] at hresult
  simpa using hresult

end Routine

end LineScript
