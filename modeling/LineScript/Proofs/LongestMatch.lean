import LineScript.Proofs.Token.Choice
import LineScript.Proofs.Token.Lines

/-!
# Scanning is longest match

A text falls into pieces in one way only: at each place the longest text of any kind is taken, until
the text is used up or nothing matches (`Cuts`). The languages of the tokens alone decide where the
pieces end and what they are; the scanner makes its tokens of these pieces (`scan_longest_match`).
It fails exactly where a rest is left that nothing matches, and then reports the place of that rest
and how far it could still have become a token.
-/

set_option autoImplicit false

namespace LineScript

namespace Token

open Pattern

/-! ## Pieces of a text -/

/-- A piece of a text, with the kind of token that it is, if it is not skipped. -/
structure Cut where
  kind : Option TokenKind
  text : List Char

/-- The text falls into pieces, each of which is chosen in front of those behind it, and a rest
where nothing matches. -/
inductive Cuts : List Char → List Cut → List Char → Prop
  | stop {text : List Char} (h : Unmatched text) : Cuts text [] text
  | cut {kind : Option TokenKind} {text taken rest remains : List Char} {cuts : List Cut}
      (htext : taken ++ rest = text) (h : Chosen kind taken rest) (hrest : Cuts rest cuts remains) :
      Cuts text (⟨kind, taken⟩ :: cuts) remains

/-- The tokens of the pieces of a text that begins at byte `position`. -/
def assemble (position : Nat) : List Cut → Scanned
  | [] => ⟨false, [Token.endOfFile position]⟩
  | cut :: cuts =>
    attach cut.kind cut.text position (assemble (position + byteLength cut.text) cuts)

variable {text remains remains' : List Char} {cuts cuts' : List Cut}

/-- There is one way to cut a text. -/
theorem Cuts.unique (h : Cuts text cuts remains) (h' : Cuts text cuts' remains') :
    cuts' = cuts ∧ remains' = remains := by
  induction h generalizing cuts' with
  | @stop text hnone =>
    cases h' with
    | stop => exact ⟨rfl, rfl⟩
    | @cut kind _ taken rest _ _ htext hchosen _ =>
      exact absurd (hnone kind taken ⟨rest, htext⟩ hchosen.mem) hchosen.nonempty
  | @cut kind text taken rest _ _ htext hchosen _ ih =>
    cases h' with
    | stop hnone => exact absurd (hnone kind taken ⟨rest, htext⟩ hchosen.mem) hchosen.nonempty
    | @cut kind' _ taken' rest' _ _ htext' hchosen' hrest' =>
      have hmatch := (htext ▸ hchosen.longest_eq).symm.trans (htext' ▸ hchosen'.longest_eq)
      obtain ⟨rfl, hlength⟩ := Match.mk.inj hmatch
      obtain ⟨rfl, rfl⟩ := List.append_inj (htext.trans htext'.symm) hlength
      obtain ⟨rfl, rfl⟩ := ih hrest'
      exact ⟨rfl, rfl⟩

/-- The pieces and the rest are the text. -/
theorem Cuts.text_eq (h : Cuts text cuts remains) : text = cuts.flatMap Cut.text ++ remains := by
  induction h with
  | stop => rfl
  | cut htext _ _ ih => rw [← htext, ih, List.flatMap_cons, List.append_assoc]

theorem Cuts.unmatched (h : Cuts text cuts remains) : Unmatched remains := by
  induction h with
  | stop h => exact h
  | cut _ _ _ ih => exact ih

/-! ## What the scanner makes of them -/

theorem unmatched_nil : Unmatched [] := fun _ _ hfront _ => List.prefix_nil.1 hfront

/-- The scanner cuts every text, and makes tokens of the pieces if nothing is left. -/
theorem exists_cuts (position : Nat) (text : List Char) :
    ∃ cuts remains, Cuts text cuts remains ∧
      ((remains = [] ∧ scanFrom position text = .ok (assemble position cuts)) ∨
        (remains ≠ [] ∧
          scanFrom position text = .error ⟨position + byteLength (cuts.flatMap Cut.text),
            String.ofList (stuck remains)⟩)) := by
  induction hn : text.length using Nat.strong_induction_on generalizing position text with
  | _ n ih =>
    cases text with
    | nil => exact ⟨[], [], .stop unmatched_nil, Or.inl ⟨rfl, scanFrom_nil position⟩⟩
    | cons c tail =>
      have hne : c :: tail ≠ [] := List.cons_ne_nil c tail
      by_cases hlength : (longest (c :: tail)).length = 0
      · refine ⟨[], c :: tail, .stop (unmatched_iff.2 hlength), Or.inr ⟨hne, ?_⟩⟩
        rw [scanFrom, dif_pos hlength]
        rfl
      · have hdrop : ((c :: tail).drop (longest (c :: tail)).length).length < n := by
          rw [List.length_drop, hn]
          have hpos : 0 < (c :: tail).length := Nat.succ_pos _
          omega
        obtain ⟨cuts, remains, hcuts, hscan⟩ :=
          ih _ hdrop (position + byteLength ((c :: tail).take (longest (c :: tail)).length)) _ rfl
        refine ⟨_, remains, .cut (List.take_append_drop _ _) (chosen_longest hlength) hcuts, ?_⟩
        rcases hscan with ⟨hnil, hok⟩ | ⟨hrest, herror⟩
        · exact Or.inl ⟨hnil, scanFrom_step hne hlength hok⟩
        · refine Or.inr ⟨hrest, ?_⟩
          rw [scanFrom, dif_neg hlength]
          simp only [herror]
          rw [List.flatMap_cons, byteLength_append, Nat.add_assoc]

/-- A scan that succeeds makes tokens of the pieces of the whole text. -/
theorem cuts_of_scanFrom {position : Nat} {r : Scanned} (h : scanFrom position text = .ok r) :
    ∃ cuts, Cuts text cuts [] ∧ r = assemble position cuts := by
  obtain ⟨cuts, remains, hcuts, ⟨rfl, hok⟩ | ⟨_, herror⟩⟩ := exists_cuts position text
  · exact ⟨cuts, hcuts, Except.ok.inj (h.symm.trans hok)⟩
  · rw [h] at herror
    cases herror

/-- **Scanning is longest match.** A source falls into pieces in exactly one way, such that each
piece is the longest text of any kind at its place, and a rest that nothing matches. If the rest is
empty, the tokens are those of the pieces. If it is not, there are no tokens; the error has the
place of the rest and the longest text there that could still have become a match. -/
theorem scan_longest_match (source : String) : ∃ cuts remains, Cuts source.toList cuts remains ∧
    (∀ cuts' remains', Cuts source.toList cuts' remains' → cuts' = cuts ∧ remains' = remains) ∧
    ((remains = [] ∧ scan source = .ok (assemble 0 cuts).tokens) ∨
      (remains ≠ [] ∧ ∃ snippet, LongestStart remains snippet ∧
        scan source = .error ⟨byteLength (cuts.flatMap Cut.text), String.ofList snippet⟩)) := by
  obtain ⟨cuts, remains, hcuts, hscan⟩ := exists_cuts 0 source.toList
  refine ⟨cuts, remains, hcuts, fun cuts' remains' h => hcuts.unique h, ?_⟩
  rcases hscan with ⟨hnil, hok⟩ | ⟨hrest, herror⟩
  · exact Or.inl ⟨hnil, by rw [scan, hok]; rfl⟩
  · refine Or.inr ⟨hrest, stuck remains, ?_, by rw [scan, herror, Nat.zero_add]; rfl⟩
    exact stuck_longestStart hrest hcuts.unmatched

/-- A name goes on behind a keyword, and a point without a digit behind it is no part of a
number. -/
example : scan "or1 2." = .error ⟨5, "."⟩ := by cbv

end Token

end LineScript
