import Equate.Proofs.Node.Failure
/-!
# The reader makes progress

Reading a text is a tree of calls, for forms and for items. A call makes only calls that need less
than it does (`ReadCall.Calls.need_lt`), so the fuel that a text is read with never runs out
(`ReadCall.ComesTo.need_le`). All calls are made at places of the text, and one that reads a form
leaves fewer bytes behind. An error is reported at the place of a fault. `Node.read_progresses` puts
this together.
-/

namespace Equate

variable {origin fuel : Nat} {text : Bytes} {c c' : Cursor} {closing : UInt8} {vs : List Node}

/-! ## Calls -/

/-- A call of the reader: for the next form, or for the forms up to a closing byte. -/
inductive ReadCall where
  | form (c : Cursor)
  | items (closing : UInt8) (c : Cursor)

namespace ReadCall

/-- The cursor that the call is made with. -/
def cursor : ReadCall → Cursor
  | .form c | .items _ c => c

/-- How much fuel the call needs at most. -/
def need : ReadCall → Nat
  | .form c => 2 * c.rest.length + 1
  | .items _ c => 2 * c.rest.length + 2

/-- Whether the first call, made with one unit of fuel more, makes the second one with `fuel`. -/
inductive Calls (origin fuel : Nat) : ReadCall → ReadCall → Prop
  | inside {c : Cursor} {bracket : Bracket}
      (hbracket : bracket? c.skipSeparators.rest = .ok (some bracket)) :
      Calls origin fuel (.form c)
        (.items bracket.closing (c.skipSeparators.skip bracket.opening.length))
  | item {closing : UInt8} {c : Cursor} (hne : c.skipSeparators.rest ≠ [])
      (hclosing : c.skipSeparators.rest.head? ≠ some closing) :
      Calls origin fuel (.items closing c) (.form c.skipSeparators)
  | others {closing : UInt8} {c between : Cursor} {x : Node} (hne : c.skipSeparators.rest ≠ [])
      (hclosing : c.skipSeparators.rest.head? ≠ some closing)
      (hx : readForm origin fuel c.skipSeparators = .ok (x, between)) :
      Calls origin fuel (.items closing c) (.items closing between)

/-- Whether the call is made, with so much fuel, when the text is read. -/
inductive ComesTo (origin : Nat) (text : Bytes) : Nat → ReadCall → Prop
  | text : ComesTo origin text (2 * text.length + 2) (.form (.start text))
  | call {fuel : Nat} {call call' : ReadCall} (h : ComesTo origin text (fuel + 1) call)
      (hcalls : call.Calls origin fuel call') : ComesTo origin text fuel call'

variable {call call' : ReadCall}

namespace Calls

theorem exists_passes (h : call.Calls origin fuel call') :
    ∃ s, call.cursor.Passes s call'.cursor := by
  cases h with
  | @inside c =>
    obtain ⟨g, hg⟩ := c.exists_skipSeparators
    exact ⟨_, hg.trans (Cursor.passes_skip _ _)⟩
  | @item _ c => exact c.exists_skipSeparators
  | @others _ c _ _ _ _ hx =>
    obtain ⟨g, hg⟩ := c.exists_skipSeparators
    obtain ⟨s, -, hs⟩ := ((formAt_of_readForm fuel).1 hx).exists_passes
    exact ⟨_, hg.trans hs⟩

/-- A bracket takes a byte, and so does an item. -/
theorem need_lt (h : call.Calls origin fuel call') : call'.need < call.need := by
  cases h with
  | @inside c bracket hbracket =>
    obtain ⟨g, hg⟩ := c.exists_skipSeparators
    obtain ⟨bs, hopening⟩ := rest_of_bracket? hbracket
    have hlength := (hg.trans (.skip hopening)).length
    have hpos := bracket.length_opening_pos
    rw [List.length_append] at hlength
    simp only [need]
    omega
  | @item _ c =>
    obtain ⟨g, hg⟩ := c.exists_skipSeparators
    have hlength := hg.length
    simp only [need]
    omega
  | @others _ c _ _ _ _ hx =>
    obtain ⟨g, hg⟩ := c.exists_skipSeparators
    have hlength := hg.length
    have hlt := ((formAt_of_readForm fuel).1 hx).length_lt
    simp only [need]
    omega

end Calls

/-- No call makes calls without end, whatever the fuel. -/
theorem wellFounded_calls (origin : Nat) :
    WellFounded fun call' call => ∃ fuel, Calls origin fuel call call' :=
  Subrelation.wf (fun ⟨_, h⟩ => h.need_lt) (measure need).wf

namespace ComesTo

theorem need_le (h : ComesTo origin text fuel call) : call.need ≤ fuel := by
  induction h with
  | text => simp [need, Cursor.start]
  | call _ hcalls ih =>
    have hlt := hcalls.need_lt
    omega

theorem exists_passes (h : ComesTo origin text fuel call) :
    ∃ s, (Cursor.start text).Passes s call.cursor := by
  induction h with
  | text => exact ⟨[], rfl, rfl⟩
  | call _ hcalls ih =>
    obtain ⟨s, hs⟩ := ih
    obtain ⟨s', hs'⟩ := hcalls.exists_passes
    exact ⟨s ++ s', hs.trans hs'⟩

end ComesTo

/-- Whether the call has fuel, is made at a place of the text, and returns at a place behind it: one
for a form takes at least one byte. -/
structure Progresses (origin : Nat) (text : Bytes) (fuel : Nat) (call : ReadCall) : Prop where
  hasFuel : 0 < fuel
  stands : ∃ s, (Cursor.start text).Passes s call.cursor
  form {c c' : Cursor} {v : Node} (hcall : call = .form c)
    (h : readForm origin fuel c = .ok (v, c')) : ∃ s, s ≠ [] ∧ c.Passes s c'
  items {closing : UInt8} {c c' : Cursor} {vs : List Node} (hcall : call = .items closing c)
    (h : readItems origin fuel closing c = .ok (vs, c')) : ∃ s, c.Passes s c'

end ReadCall

theorem exists_passes_of_readItems (fuel : Nat)
    (h : readItems origin fuel closing c = .ok (vs, c')) : ∃ s, c.Passes s c' := by
  induction fuel generalizing c vs with
  | zero =>
    rw [readItems.eq_def] at h
    cases h
  | succ fuel ih =>
    obtain ⟨g, hg⟩ := c.exists_skipSeparators
    rcases readItems_cases h with ⟨-, rfl, -⟩ | ⟨x, xs, between, hx, hxs, -⟩
    · exact ⟨g, hg⟩
    · obtain ⟨s, -, hs⟩ := ((formAt_of_readForm fuel).1 hx).exists_passes
      obtain ⟨s', hs'⟩ := ih hxs
      exact ⟨_, hg.trans (hs.trans hs')⟩

theorem ReadCall.ComesTo.progresses {call : ReadCall} (h : ComesTo origin text fuel call) :
    Progresses origin text fuel call where
  hasFuel := by
    have hneed := h.need_le
    cases call <;> exact Nat.lt_of_lt_of_le (Nat.succ_pos _) hneed
  stands := h.exists_passes
  form _ hread := ((formAt_of_readForm fuel).1 hread).exists_passes
  items _ hread := exists_passes_of_readItems fuel hread

namespace Node

/-- Reading a text ends: its calls do not go on without end, and none of them is out of fuel. They
stay within the text, and each that reads a form takes at least one byte. If the text cannot be
read, the error is reported at the place of its fault. -/
theorem read_progresses (text : Bytes) (origin : Nat) :
    (WellFounded fun call' call => ∃ fuel, ReadCall.Calls origin fuel call call') ∧
      (∀ fuel call, ReadCall.ComesTo origin text fuel call →
        ReadCall.Progresses origin text fuel call) ∧
      ∀ e, read text origin = .error e ↔
        ∃ pre t, text = pre ++ t ∧ e.position = Position.start.afterAll pre ∧
          FaultAt origin pre t e.fault :=
  ⟨ReadCall.wellFounded_calls origin, fun _ _ h => h.progresses, fun _ => read_eq_error_iff⟩

/-- A string that ends with the text, behind a backslash, inside of a set inside of a list. -/
def truncated : Bytes := utf8 "; a list\n(a #\x7b1 \"b\\"

theorem read_progresses_truncated :
    ReadCall.ComesTo 0 truncated 39 (.items Ascii.rightParen ⟨truncated.drop 10, ⟨2, 2⟩⟩) ∧
      ReadCall.Progresses 0 truncated 39
        (.items Ascii.rightParen ⟨truncated.drop 10, ⟨2, 2⟩⟩) ∧
      read truncated = .error ⟨.unterminatedString, ⟨2, 8⟩⟩ ∧
      ∃ pre t, truncated = pre ++ t ∧ ⟨2, 8⟩ = Position.start.afterAll pre ∧
        FaultAt 0 pre t .unterminatedString := by
  have hbracket :
      Equate.bracket? (Cursor.start truncated).skipSeparators.rest = .ok (some .list) := by
    decide +kernel
  have htext : ReadCall.ComesTo 0 truncated 40 (.form (.start truncated)) := .text
  have hcomes : ReadCall.ComesTo 0 truncated 39
      (.items Ascii.rightParen ⟨truncated.drop 10, ⟨2, 2⟩⟩) := .call htext (.inside hbracket)
  have hread : read truncated = .error ⟨.unterminatedString, ⟨2, 8⟩⟩ := by decide +kernel
  obtain ⟨-, hprogress, herror⟩ := read_progresses truncated 0
  exact ⟨hcomes, hprogress _ _ hcomes, hread, (herror _).1 hread⟩

end Node

end Equate
