import LineScript.Proofs.Machine.InPlace

/-!
# What an instruction leaves alone

Carried out in place on any machine, an instruction that fails has changed nothing, but that a line
may have been printed in part (`fault_changes_nothing`). One that succeeds has written its
destination and nothing else, goes on behind itself unless it is a jump that is taken, and prints
only if it is a print instruction (`success_changes_destination`).

Both are about instructions in place, where a check behind a change would show, and about every
outlet. The step of a run is the case of its sink (`State.execute_in_place`).
-/

set_option autoImplicit false

namespace LineScript

/-- The step of a run, as a step in place. -/
theorem State.execute_in_place (s : State) (i : Instruction) :
    (i.carryOut Sink.outlet).on s.machine =
      ((s.execute i).2.elim (.ok ()) .error, (s.execute i).1.machine) := by
  rw [Instruction.carryOut_eq, State.execute]
  change Machine.follow Sink.outlet s.machine (i.effect s.registers) = _
  cases i.effect s.registers with
  | error fault => rfl
  | ok effect =>
    cases effect with
    | print line =>
      by_cases hroom : (Utf8.encode line).length ≤ s.sink.room (Utf8.encode line)
      · simp [Machine.follow, Machine.perform, Sink.outlet, State.machine, State.perform, hroom]
      · simp [Machine.follow, Machine.perform, Sink.outlet, State.machine, State.perform, hroom]
    | _ => rfl

/-! ## What an instruction asks for -/

namespace Instruction

/-- The index that a jump goes on at, if it is taken. -/
def taken? (rs : Registers) : Instruction → Option Nat
  | .jump target => some target
  | .jumpIf condition target => if (rs.get? condition).any Value.isTrue then some target else none
  | .jumpUnless condition target =>
    if (rs.get? condition).any Value.isTrue then none else some target
  | _ => none

variable {rs : Registers} {i : Instruction} {effect : Effect}

theorem taken?_of_dest? {r : Register} (h : i.dest? = some r) : i.taken? rs = none := by
  cases i with
  | jump target => cases h
  | jumpIf condition target => cases h
  | jumpUnless condition target => cases h
  | _ => rfl

/-- An instruction writes its destination, prints the texts of its arguments, or goes on
somewhere. -/
theorem effect_cases (h : i.effect rs = .ok effect) :
    (∃ r v, i.dest? = some r ∧ effect = .write r v) ∨
      (∃ arguments values, i = .print arguments ∧ arguments.map rs.get? = values.map some ∧
        effect = .print (printedLine values)) ∨
      i.dest? = none ∧ (∀ arguments, i ≠ .print arguments) ∧
        effect = (i.taken? rs).elim .proceed .jump := by
  rcases hdest : i.dest? with _ | r
  · -- Without a destination there are the jumps and printing.
    right
    cases i with
    | print arguments =>
      obtain ⟨values, hvalues, rfl⟩ := effect_print h
      exact Or.inl ⟨arguments, values, rfl, hvalues, rfl⟩
    | jump target =>
      cases h
      exact Or.inr ⟨rfl, fun _ => nofun, rfl⟩
    | jumpIf condition target =>
      obtain ⟨v, hv, rfl⟩ := effect_jumpIf h
      refine Or.inr ⟨rfl, fun _ => nofun, ?_⟩
      rw [taken?, hv, Option.any_some]
      split <;> rfl
    | jumpUnless condition target =>
      obtain ⟨v, hv, rfl⟩ := effect_jumpUnless h
      refine Or.inr ⟨rfl, fun _ => nofun, ?_⟩
      rw [taken?, hv, Option.any_some]
      split <;> rfl
    | _ => cases hdest
  · obtain ⟨v, hv⟩ := writes_of_effect hdest h
    exact Or.inl ⟨r, v, rfl, hv⟩

end Instruction

/-! ## Instructions that fail -/

namespace Machine

variable {σ : Type} {outlet : Outlet σ} {m n : Machine σ} {fault : Fault}

/-- Of all changes only printing can fail. -/
theorem perform_error {effect : Effect} (h : m.perform outlet effect = (.error fault, n)) :
    fault = .outputClosed ∧ n = { m with output := n.output } := by
  cases effect with
  | print line =>
    rw [perform] at h
    rcases hwrite : outlet.write m.output (Utf8.encode line) with ⟨output, all⟩
    rw [hwrite] at h
    cases all with
    | false =>
      obtain ⟨hfault, rfl⟩ := Prod.mk.inj h
      exact ⟨(Except.error.inj hfault).symm, rfl⟩
    | true => cases (Prod.mk.inj h).1
  | _ => cases (Prod.mk.inj h).1

/-- A fault changes nothing but the output, and that only if the fault is the output. -/
theorem follow_error {x : Except Fault Effect} (h : m.follow outlet x = (.error fault, n)) :
    n.registers = m.registers ∧ n.next = m.next ∧
      (fault ≠ .outputClosed → n.output = m.output) := by
  cases x with
  | error e =>
    obtain ⟨_, rfl⟩ := Prod.mk.inj h
    exact ⟨rfl, rfl, fun _ => rfl⟩
  | ok effect =>
    obtain ⟨hfault, hn⟩ := perform_error h
    rw [hn]
    exact ⟨rfl, rfl, fun hne => absurd hfault hne⟩

end Machine

/-- **A fault changes nothing.** An instruction that fails leaves the registers and the index to go
on from as they are, and unless the fault is that a line was not taken in full, nothing is printed.
So it is on every machine with every outlet, and the steps of a run are those of the machine that
prints to the sink. -/
theorem Instruction.fault_changes_nothing (i : Instruction) :
    (∀ {σ : Type} (outlet : Outlet σ) (m n : Machine σ) (fault : Fault),
      (i.carryOut outlet).on m = (.error fault, n) →
      n.registers = m.registers ∧ n.next = m.next ∧ (fault ≠ .outputClosed → n.output = m.output)) ∧
      (∀ s : State, (i.carryOut Sink.outlet).on s.machine =
        ((s.execute i).2.elim (.ok ()) .error, (s.execute i).1.machine)) ∧
      ∀ (s t : State) (fault : Fault), s.execute i = (t, some fault) →
        t.registers = s.registers ∧ t.next = s.next ∧
        (fault ≠ .outputClosed → t.sink = s.sink) := by
  have hmachine : ∀ {σ : Type} (outlet : Outlet σ) (m n : Machine σ) (fault : Fault),
      (i.carryOut outlet).on m = (.error fault, n) →
      n.registers = m.registers ∧ n.next = m.next ∧
      (fault ≠ .outputClosed → n.output = m.output) := by
    intro σ outlet m n fault h
    rw [carryOut_eq] at h
    exact Machine.follow_error h
  refine ⟨hmachine, fun s => s.execute_in_place i, fun s t fault h => ?_⟩
  have hplace := s.execute_in_place i
  rw [h] at hplace
  exact hmachine Sink.outlet s.machine t.machine fault hplace

/-- An outlet that keeps the first byte of what it is given. -/
def Outlet.firstByte : Outlet (List UInt8) :=
  ⟨fun taken bytes => (taken ++ bytes.take 1, decide (bytes.length ≤ 1))⟩

/-- An array of one number, and a number that is no index of it. -/
def Machine.beyondIndex : Machine (List UInt8) :=
  ⟨⟨[some (.array .number [.number .zero]), some (.number ⟨7, 0⟩)]⟩, 3, [65]⟩

/-- The array is not marked as mixed for the array that does not get in, and of the line `7` with
its newline one byte is there. -/
theorem Instruction.fault_changes_nothing_beyondIndex :
    (∃ n, ((Instruction.setItem 0 1 0).carryOut Outlet.firstByte).on Machine.beyondIndex =
      (.error (.indexOutOfRange ⟨7, 0⟩ 1), n) ∧
      n.registers = Machine.beyondIndex.registers ∧ n.next = 3 ∧ n.output = [65]) ∧
      ∃ n, ((Instruction.print [1]).carryOut Outlet.firstByte).on Machine.beyondIndex =
        (.error .outputClosed, n) ∧
        n.registers = Machine.beyondIndex.registers ∧ n.next = 3 ∧ n.output = [65, 55] := by
  constructor
  · refine ⟨Machine.beyondIndex, rfl, ?_⟩
    have h := (fault_changes_nothing (.setItem 0 1 0)).1 Outlet.firstByte Machine.beyondIndex
      Machine.beyondIndex (.indexOutOfRange ⟨7, 0⟩ 1) rfl
    exact ⟨h.1, h.2.1, h.2.2 (by decide)⟩
  · refine ⟨{ Machine.beyondIndex with output := [65, 55] }, rfl, ?_⟩
    have h := (fault_changes_nothing (.print [1])).1 Outlet.firstByte Machine.beyondIndex
      { Machine.beyondIndex with output := [65, 55] } .outputClosed rfl
    exact ⟨h.1, h.2.1, rfl⟩

/-! ## Instructions that succeed -/

/-- Bytes that the sink of a run has taken in full are behind those it had. -/
theorem Sink.taken_of_write {s t : Sink} {bytes : List UInt8}
    (h : Sink.outlet.write s bytes = (t, true)) : t.taken.toList = s.taken.toList ++ bytes := by
  obtain ⟨rfl, hroom⟩ := Prod.mk.inj h
  rw [take_eq_append, List.take_of_length_le (of_decide_eq_true hroom)]

theorem Machine.perform_print_ok {σ : Type} {outlet : Outlet σ} {m n : Machine σ} {line : String}
    (h : m.perform outlet (.print line) = (.ok (), n)) :
    n.registers = m.registers ∧ n.next = m.next ∧
      outlet.write m.output (Utf8.encode line) = (n.output, true) := by
  rw [perform] at h
  rcases hwrite : outlet.write m.output (Utf8.encode line) with ⟨output, all⟩
  rw [hwrite] at h
  cases all with
  | false => cases (Prod.mk.inj h).1
  | true =>
    obtain ⟨_, rfl⟩ := Prod.mk.inj h
    exact ⟨rfl, rfl, rfl⟩

namespace Instruction

variable {σ : Type} {outlet : Outlet σ} {m n : Machine σ} {i : Instruction}

/-- What becomes of the output: a print instruction adds the texts of its arguments with blanks
between them and a newline behind them, any other instruction nothing. -/
def Adds (outlet : Outlet σ) (m : Machine σ) (output : σ) : Instruction → Prop
  | .print arguments => ∃ values : List Value, arguments.map m.registers.get? = values.map some ∧
    outlet.write m.output (Utf8.encode (" ".intercalate (values.map Value.display) ++ "\n")) =
      (output, true)
  | _ => output = m.output

theorem adds_of_ne_print (hprint : ∀ arguments, i ≠ .print arguments) :
    i.Adds outlet m m.output := by
  cases i with
  | print arguments => exact absurd rfl (hprint arguments)
  | _ => rfl

/-- What an instruction changes if it is carried out. -/
structure Keeps (outlet : Outlet σ) (i : Instruction) (m n : Machine σ) : Prop where
  /-- Registers other than the destination hold what they held. -/
  registers : ∀ q, i.dest? ≠ some q → n.registers.get? q = m.registers.get? q
  /-- Only a jump that is taken goes on elsewhere. -/
  next : n.next = (i.taken? m.registers).getD m.next
  output : i.Adds outlet m n.output

theorem keeps_of_carryOut (h : (i.carryOut outlet).on m = (.ok (), n)) : i.Keeps outlet m n := by
  rw [carryOut_eq] at h
  cases heffect : i.effect m.registers with
  | error fault =>
    rw [heffect] at h
    cases (Prod.mk.inj h).1
  | ok effect =>
    rw [heffect] at h
    -- A register, a line or the next index: each leaves the two others alone.
    rcases effect_cases heffect with
      ⟨r, v, hdest, rfl⟩ | ⟨arguments, values, rfl, hvalues, rfl⟩ | ⟨hdest, hprint, rfl⟩
    · obtain ⟨_, rfl⟩ := Prod.mk.inj h
      -- What has a destination does not print.
      have hprint : ∀ arguments, i ≠ .print arguments := by
        rintro arguments rfl
        cases hdest
      refine ⟨fun q hq => ?_, ?_, adds_of_ne_print hprint⟩
      · have hne : q ≠ r := fun heq => hq (heq ▸ hdest)
        exact (Registers.get?_set _ _ _ _).trans (if_neg hne)
      · rw [taken?_of_dest? hdest]
        rfl
    · obtain ⟨hregisters, hnext, hwrite⟩ := Machine.perform_print_ok h
      exact ⟨fun q _ => by rw [hregisters], hnext, values, hvalues, hwrite⟩
    · have hadds : i.Adds outlet m m.output := adds_of_ne_print hprint
      cases htaken : i.taken? m.registers with
      | none =>
        rw [htaken] at h
        obtain ⟨_, rfl⟩ := Prod.mk.inj h
        exact ⟨fun _ _ => rfl, by rw [htaken]; rfl, hadds⟩
      | some target =>
        rw [htaken] at h
        obtain ⟨_, rfl⟩ := Prod.mk.inj h
        exact ⟨fun _ _ => rfl, by rw [htaken]; rfl, hadds⟩

/-- **A success changes the destination.** An instruction that is carried out leaves every register
but its destination as it was, wherever the destination lies and whatever it reads, goes on behind
itself or at the target of a jump that is taken, and prints what a print instruction prints and
nothing else. So it is on every machine with every outlet; the sink of a run has the bytes of the
line behind those it had. -/
theorem success_changes_destination (i : Instruction) :
    (∀ {σ : Type} (outlet : Outlet σ) (m n : Machine σ), (i.carryOut outlet).on m = (.ok (), n) →
      i.Keeps outlet m n) ∧
      ∀ s t : State, s.execute i = (t, none) →
        i.Keeps Sink.outlet s.machine t.machine ∧
        ∀ arguments, i = .print arguments →
          ∃ values : List Value, arguments.map s.registers.get? = values.map some ∧
            t.sink.taken.toList = s.sink.taken.toList ++
              Utf8.encode (" ".intercalate (values.map Value.display) ++ "\n") := by
  refine ⟨fun outlet m n h => keeps_of_carryOut h, fun s t h => ?_⟩
  have hplace := s.execute_in_place i
  rw [h] at hplace
  have hkeeps : i.Keeps Sink.outlet s.machine t.machine := keeps_of_carryOut hplace
  refine ⟨hkeeps, ?_⟩
  rintro arguments rfl
  obtain ⟨values, hvalues, hwrite⟩ := hkeeps.output
  exact ⟨values, hvalues, Sink.taken_of_write hwrite⟩

end Instruction

/-- An outlet that takes everything. -/
def Outlet.endless : Outlet (List UInt8) := ⟨fun taken bytes => (taken ++ bytes, true)⟩

/-- An array of one number, and an index of it. -/
def Machine.selfStore : Machine (List UInt8) :=
  ⟨⟨[some (.array .number [.number ⟨4, 0⟩]), some (.number .zero)]⟩, 3, []⟩

/-- The array is stored in itself, a copy is made behind the end of the registers, a jump is not
taken, and a line is printed. -/
theorem Instruction.success_changes_destination_selfStore :
    (∃ n, ((Instruction.setItem 0 1 0).carryOut Outlet.endless).on Machine.selfStore = (.ok (), n) ∧
      n.registers.get? 0 = some (.array .any [.array .number [.number ⟨4, 0⟩]]) ∧
      n.registers.get? 1 = some (.number .zero) ∧ n.next = 3 ∧ n.output = []) ∧
      (∃ n, ((Instruction.copy 0 5).carryOut Outlet.endless).on Machine.selfStore = (.ok (), n) ∧
        n.registers.get? 5 = Machine.selfStore.registers.get? 0 ∧ n.registers.get? 4 = none) ∧
      (∃ n, ((Instruction.jumpIf 1 9).carryOut Outlet.endless).on Machine.selfStore = (.ok (), n) ∧
        n.next = 3) ∧
      ∃ n, ((Instruction.print [1, 1]).carryOut Outlet.endless).on Machine.selfStore = (.ok (), n) ∧
        n.output = [48, 32, 48, 10] := by
  refine ⟨⟨_, rfl, ?_⟩, ⟨_, rfl, ?_⟩, ⟨_, rfl, ?_⟩, ⟨_, rfl, ?_⟩⟩
  · have h :=
      (success_changes_destination (.setItem 0 1 0)).1 Outlet.endless Machine.selfStore _ rfl
    exact ⟨rfl, h.registers 1 (by decide), h.next, h.output⟩
  · have h := (success_changes_destination (.copy 0 5)).1 Outlet.endless Machine.selfStore _ rfl
    exact ⟨rfl, h.registers 4 (by decide)⟩
  · exact ((success_changes_destination (.jumpIf 1 9)).1 Outlet.endless
      Machine.selfStore _ rfl).next
  · rfl

end LineScript
