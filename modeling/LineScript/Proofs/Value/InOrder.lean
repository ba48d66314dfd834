import LineScript.Proofs.ElementKinds
import LineScript.Proofs.LiteralFaults
import LineScript.Proofs.Value.Entries

/-!
# Maps in the order of their keys

All maps that there are in a run, in registers and inside of other values, have their entries in the
order of their keys (`Value.InOrder`). Instructions do not build maps of entries of their own; what
they write is a scalar, a map without entries, or comes out of the registers, as it is or with one
element more (`Instruction.Written`), and all of these keep the order. So it holds in every state
that the program of a source reaches (`Source.maps_in_order`).
-/

set_option autoImplicit false

namespace LineScript

open State

/-! ## Values -/

namespace Value

/-- Every map inside the value, itself included, has its entries in the order of their keys. -/
inductive InOrder : Value → Prop
  | scalar {v : Value} (h : v.isScalar = true) : InOrder v
  | array {element : Kind} {items : List Value} (h : ∀ item ∈ items, InOrder item) :
      InOrder (.array element items)
  | map {element : Kind} {entries : List (String × Value)} (hsorted : Entries.Sorted entries)
      (h : ∀ p ∈ entries, InOrder p.2) : InOrder (.map element entries)

variable {a m v new : Value} {element : Kind}

/-- An array has no order of its own; it keeps what its items have. -/
theorem inOrder_array_iff {items : List Value} :
    (Value.array element items).InOrder ↔ ∀ item ∈ items, item.InOrder := by
  refine ⟨fun h => ?_, .array⟩
  cases h with
  | scalar h => cases h
  | array h => exact h

/-- What the lookups and stores below open a map with. -/
theorem inOrder_map_iff {entries : List (String × Value)} :
    (Value.map element entries).InOrder ↔ Entries.Sorted entries ∧ ∀ p ∈ entries, p.2.InOrder := by
  refine ⟨fun h => ?_, fun h => .map h.1 h.2⟩
  cases h with
  | scalar h => cases h
  | map hsorted h => exact ⟨hsorted, h⟩

/-- The maps that instructions make have no entries yet. -/
theorem inOrder_emptyMap (element : Kind) : (emptyMap element).InOrder :=
  .map .nil (List.forall_mem_nil _)

/-- What comes out of an array was in order inside of it. -/
theorem InOrder.getItem {index : Decimal} (h : a.InOrder)
    (hv : a.getItem index = .ok v) : v.InOrder := by
  obtain ⟨_, items, i, rfl, _, hi⟩ := getItem_eq_ok_iff.1 hv
  exact inOrder_array_iff.1 h v (List.mem_of_getElem? hi)

/-- What comes out of a map was in order inside of it. -/
theorem InOrder.getEntry {key : String} (h : m.InOrder)
    (hv : m.getEntry key = .ok v) : v.InOrder := by
  obtain ⟨_, entries, rfl, hget⟩ := getEntry_eq_ok_iff.1 hv
  obtain ⟨k, hk⟩ := mem_of_get? hget
  exact (inOrder_map_iff.1 h).2 _ hk

/-- The other items stay, and the new one is in order. -/
theorem InOrder.setItem {index : Decimal} (h : a.InOrder) (hv : v.InOrder)
    (hnew : a.setItem index v = .ok new) : new.InOrder := by
  obtain ⟨_, items, i, rfl, _, rfl⟩ := setItem_eq_ok_iff.1 hnew
  refine .array fun item hitem => ?_
  rcases List.mem_or_eq_of_mem_set hitem with hold | rfl
  · exact inOrder_array_iff.1 h item hold
  · exact hv

/-- The one operation that changes the entries of a map: inserting keeps the order of the keys. -/
theorem InOrder.setEntry {key : String} (h : m.InOrder) (hv : v.InOrder)
    (hnew : m.setEntry key v = .ok new) : new.InOrder := by
  obtain ⟨_, entries, rfl, rfl⟩ := setEntry_eq_ok_iff.1 hnew
  obtain ⟨hsorted, hentries⟩ := inOrder_map_iff.1 h
  refine .map (hsorted.insert key v) fun p hp => ?_
  rcases mem_insert hp with rfl | hold
  · exact hv
  · exact hentries p hold

end Value

/-! ## Runs -/

/-- All maps that the registers hold are in order. -/
def State.InOrder (s : State) : Prop := ∀ r v, s.registers.get? r = some v → v.InOrder

/-- What an instruction writes is in order, with one case for each way in which it comes about. -/
theorem State.InOrder.written {s : State} {i : Instruction} {v : Value} (h : s.InOrder)
    (hv : i.Written s.registers v) : v.InOrder := by
  cases hv with
  | scalar hscalar => exact .scalar hscalar
  | emptyMap kind => exact Value.inOrder_emptyMap kind
  | copied hq => exact h _ _ hq
  | gathered hitems =>
    refine .array fun item hitem => ?_
    obtain ⟨q, _, hq⟩ := Instruction.register_of_mem hitems hitem
    exact h q item hq
  | item ha hitem => exact (h _ _ ha).getItem hitem
  | entry hm hentry => exact (h _ _ hm).getEntry hentry
  | withItem ha hu hnew => exact (h _ _ ha).setItem (h _ _ hu) hnew
  | withEntry hm hu hnew => exact (h _ _ hm).setEntry (h _ _ hu) hnew

/-- The step lemma: a step writes what its instruction writes, and leaves the other registers alone.
-/
theorem State.Step.inOrder {code : List Instruction} {s t : State}
    (hcode : ∀ i ∈ code, i.LoadsScalar) (hstep : Step code s t) (h : s.InOrder) : t.InOrder :=
  hstep.forall_registers hcode h fun _ _ _ hv => h.written hv

/-- The run lemma, by induction on the steps. -/
theorem State.Reaches.inOrder {code : List Instruction} {s t : State}
    (hcode : ∀ i ∈ code, i.LoadsScalar) (hr : Reaches code s t) (h : s.InOrder) : t.InOrder := by
  induction hr with
  | refl => exact h
  | tail _ hstep ih => exact hstep.inOrder hcode ih

/-! ## Programs -/

/-- Literals are scalars: arrays and maps are built by instructions, item by item. -/
theorem Value.Denotable.isScalar {v : Value} (h : v.Denotable) : v.isScalar = true := by
  rcases h.cases with ⟨_, _, _, rfl⟩ | ⟨_, rfl⟩ | ⟨_, rfl⟩ | ⟨_, rfl⟩ | ⟨_, rfl⟩ <;> rfl

/-- The code of a source loads nothing but what literal tokens denote. -/
theorem Source.loads_of_compile {source : String} {routine : Routine}
    (h : Source.compile source = .ok routine) : ∀ i ∈ routine.code, i.Loads Value.Denotable := by
  obtain ⟨p, hp, hlower⟩ : ∃ p, Source.parse source = .ok p ∧ p.lower = .ok routine := by
    unfold Source.compile at h
    split at h
    · cases h
    · rename_i p hp
      split at h
      · cases h
      · rename_i r hr
        exact ⟨p, hp, Except.ok.inj h ▸ hr⟩
  obtain ⟨tokens, _, hread, _⟩ := Source.parse_eq_ok_iff.1 hp
  obtain ⟨all, hall, hcode⟩ := Lowering.statements_of_lower hlower
  rw [hcode]
  refine Lowering.statements_load (fun st hst n hn v hv => ?_) hall
  subst hv
  exact Program.wellFormed_of_ofTokens hread st hst _ hn

/-- **Maps are in order.** In every state that the program of a source reaches, all maps have their
entries in the order of their keys. -/
theorem Source.maps_in_order {source : String} {routine : Routine}
    (h : Source.compile source = .ok routine) {sink : Sink} {t : State}
    (hr : Reaches routine.code (routine.start sink) t) : t.InOrder := by
  have hloads : ∀ i ∈ routine.code, i.LoadsScalar := fun i hi =>
    Instruction.loads_isScalar_iff.1
      ((loads_of_compile h i hi).mono fun _ => Value.Denotable.isScalar)
  refine hr.inOrder hloads fun r v hv => ?_
  change (Registers.empty _).get? r = some v at hv
  rw [Registers.get?_empty] at hv
  cases hv

end LineScript
