import Equate.Proofs.Node.Fault
/-!
# Texts that cannot be read

A text that cannot be read has a fault, and `FaultAt` says which and where: at a form that the
reader comes to, behind the only form, or at the end of a text without one. The errors of the reader
are exactly these faults, each reported at its place (`Node.read_eq_error_iff`). So with
`Node.read_eq_ok_iff` everything that the reader gives is told without fuel.
-/

namespace Equate

variable {origin : Nat} {p : Position} {g pre t bs : Bytes} {vs : List Node} {b : UInt8}
  {bracket : Bracket} {around? : Option Bracket} {c c' : Cursor} {fault : ReadFault} {e : ReadError}

/-! ## Faults of a text -/

/-- Whether the reader, inside of the bracket `around?` if there is one, comes over the bytes `pre`
to a form at the start of `t`. It comes over separators and into brackets, in each of these over
the forms in front, and does not stop at a byte that closes the bracket it is in. -/
inductive Awaits (origin : Nat) : Position → Option Bracket → Bytes → Bytes → Prop
  | here {p : Position} {around? : Option Bracket} {g t : Bytes} (hg : Separator g)
      (ht : ∀ bracket ∈ around?, t.head? ≠ some bracket.closing) : Awaits origin p around? g t
  | inside {p : Position} {around? : Option Bracket} {g s pre t : Bytes} {bracket : Bracket}
      {vs : List Node} (hg : Separator g)
      (hs : Forms origin ((p.afterAll g).afterAll bracket.opening) s vs (pre ++ t))
      (h : Awaits origin (((p.afterAll g).afterAll bracket.opening).afterAll s) (some bracket)
        pre t) : Awaits origin p around? (g ++ (bracket.opening ++ (s ++ pre))) t

/-- Whether a text of the bytes `pre` and `t` has the fault at the start of `t`. -/
inductive FaultAt (origin : Nat) : Bytes → Bytes → ReadFault → Prop
  | form {pre t : Bytes} {fault : ReadFault} (h : Awaits origin .start none pre t)
      (hfault : FormFault origin (Position.start.afterAll pre) t fault) :
      FaultAt origin pre t fault
  | endOfInput {g t : Bytes} (hg : Separator g) (ht : EndsText t) :
      FaultAt origin (g ++ t) [] .endOfInput
  | trailingBytes {s t : Bytes} {b : UInt8} {v : Node} (hs : Forms origin .start s [v] (b :: t))
      (hb : opensSeparator b = false) : FaultAt origin s (b :: t) .trailingBytes

/-! ## Faults are errors -/

namespace Awaits

/-- Behind separators is the byte that the awaited form starts with, or an opening bracket. -/
theorem exists_separator (h : Awaits origin p (some bracket) pre t)
    (ht : ∃ b bs, t = b :: bs ∧ opensSeparator b = false) :
    ∃ g b bs, pre ++ t = g ++ b :: bs ∧ Separator g ∧ opensSeparator b = false ∧
      b ≠ bracket.closing := by
  cases h with
  | here hg hclosing =>
    obtain ⟨b, bs, rfl, hb⟩ := ht
    exact ⟨pre, b, bs, rfl, hg, hb, by simpa using hclosing bracket rfl⟩
  | @inside _ _ g s pre _ bracket' vs hg =>
    obtain ⟨b, bs, heq, hb⟩ := startsForm_opening bracket' (s ++ pre ++ t)
    exact ⟨g, b, bs, by simp [← heq], hg, opensSeparator_of_startsForm hb,
      startsForm_ne_closing hb bracket⟩

theorem readItems_eq (h : Awaits origin p (some bracket) pre t)
    (ht : ∃ b bs, t = b :: bs ∧ opensSeparator b = false) {fuel : Nat}
    (hread : readForm origin (fuel + 1) ⟨pre ++ t, p⟩ = .error e) :
    readItems origin (fuel + 2) bracket.closing ⟨pre ++ t, p⟩ = .error e := by
  obtain ⟨g, b, bs, heq, hg, hb, hclosing⟩ := h.exists_separator ht
  rw [heq, readForm_separator hg] at hread
  rw [heq, readItems_separator hg, readItems_eq_bind hb hclosing, hread]
  rfl

/-- If the awaited form cannot be read, nothing around it can. The induction is on the brackets
around the form, and each of the items in front of it takes one unit of the fuel. -/
theorem readForm_eq (h : Awaits origin p around? pre t)
    (ht : ∃ b bs, t = b :: bs ∧ opensSeparator b = false)
    (hread : ∀ fuel, 2 * t.length < fuel →
      readForm origin fuel ⟨t, p.afterAll pre⟩ = .error e) (fuel : Nat)
    (hfuel : 2 * (pre ++ t).length < fuel) :
    readForm origin fuel ⟨pre ++ t, p⟩ = .error e := by
  induction h generalizing fuel with
  | @here p around? g t hg =>
    rw [List.length_append] at hfuel
    obtain ⟨fuel, rfl⟩ : ∃ n, fuel = n + 1 := ⟨fuel - 1, by omega⟩
    rw [readForm_separator hg]
    exact hread _ (by omega)
  | @inside p around? g s pre t bracket vs hg hs h ih =>
    have hopening := bracket.length_opening_pos
    have hle := hs.length_le
    simp only [List.length_append] at hfuel
    obtain ⟨fuel, rfl⟩ : ∃ n, fuel = n + 2 + vs.length + 1 :=
      ⟨fuel - vs.length - 3, by omega⟩
    simp only [Position.afterAll_append] at hread
    have hform := ih ht hread (fuel + 1) (by rw [List.length_append]; omega)
    rw [List.append_assoc, readForm_separator hg, List.append_assoc, List.append_assoc,
      readForm_opening, hs.readItems_append _ (by omega), h.readItems_eq ht hform]
    rfl

end Awaits

/-- At the end of the text there is no form. -/
theorem readForm_of_end (h : c.skipSeparators.rest = []) (fuel : Nat) :
    readForm origin (fuel + 1) c = .error ⟨.endOfInput, c.position.afterAll c.rest⟩ := by
  rw [readForm, Cursor.skipSeparators_of_end h]
  rfl

theorem FaultAt.read_eq (h : FaultAt origin pre t fault) :
    Node.read (pre ++ t) origin = .error ⟨fault, Position.start.afterAll pre⟩ := by
  cases h with
  | form h hfault =>
    rw [Node.read, Cursor.start, h.readForm_eq hfault.exists_cons hfault.readForm_eq _ (by omega)]
  | @endOfInput g t hg ht =>
    have hend : (Cursor.start (g ++ t)).skipSeparators.rest = [] :=
      Cursor.skipSeparators_rest_eq_nil_iff.2 ⟨g, t, rfl, hg, ht⟩
    rw [List.append_nil, Node.read, readForm_of_end hend]
    rfl
  | @trailingBytes s t b v hs hb =>
    obtain ⟨g, a, g', rfl, hg, hform, hrest⟩ := hs.exists_of_cons
    have htext : g ++ (a ++ g') ++ b :: t = g ++ (a ++ (g' ++ b :: t)) := by simp
    have hbehind : (Cursor.mk (g' ++ b :: t)
        ((Position.start.afterAll g).afterAll a)).skipSeparators =
          ⟨b :: t, Position.start.afterAll (g ++ (a ++ g'))⟩ := by
      rw [Cursor.skipSeparators_append hrest.separator_of_nil,
        Cursor.skipSeparators_of_opensSeparator hb]
      simp
    rw [Node.read, Cursor.start, htext, readForm_separator hg, readForm_of_form hform]
    · simp [hbehind, Cursor.error]
    · simp only [List.length_append]
      omega

/-! ## Errors are faults -/

theorem readForm_error_cases {fuel : Nat} (h : readForm origin (fuel + 1) c = .error e) :
    (bracket? c.skipSeparators.rest = .error e.fault ∧ e.position = c.skipSeparators.position) ∨
      (bracket? c.skipSeparators.rest = .ok none ∧ readAtom origin c.skipSeparators = .error e) ∨
      ∃ bracket, bracket? c.skipSeparators.rest = .ok (some bracket) ∧
        (readItems origin fuel bracket.closing (c.skipSeparators.skip bracket.opening.length) =
            .error e ∨
          ∃ items behind,
            readItems origin fuel bracket.closing (c.skipSeparators.skip bracket.opening.length) =
              .ok (items, behind) ∧
            closeCollection origin c.skipSeparators bracket items behind = .error e) := by
  rw [readForm] at h
  split at h
  · rename_i fault hfault
    cases h
    exact .inl ⟨hfault, rfl⟩
  · rename_i hbracket
    exact .inr (.inl ⟨hbracket, h⟩)
  · rename_i bracket hbracket
    refine .inr (.inr ⟨bracket, hbracket, ?_⟩)
    split at h
    · rename_i hitems
      cases h
      exact .inl hitems
    · rename_i items behind hitems
      exact .inr ⟨items, behind, hitems, h⟩

theorem readItems_error_cases {fuel : Nat} {closing : UInt8}
    (h : readItems origin (fuel + 1) closing c = .error e) :
    (c.skipSeparators.rest ≠ [] ∧ c.skipSeparators.rest.head? ≠ some closing) ∧
      (readForm origin fuel c.skipSeparators = .error e ∨
        ∃ x between, readForm origin fuel c.skipSeparators = .ok (x, between) ∧
          readItems origin fuel closing between = .error e) := by
  rw [readItems] at h
  split at h
  · cases h
  · rename_i hend
    refine ⟨by simpa using hend, ?_⟩
    split at h
    · rename_i hx
      cases h
      exact .inl hx
    · rename_i x between hx
      split at h
      · rename_i hxs
        cases h
        exact .inr ⟨x, between, hx, hxs⟩
      · cases h

/-- Whether the reader, at the cursor `c` and inside of `around?`, comes to a form with the fault
that `e` reports, and at the place that it reports. -/
def FailsAt (origin : Nat) (c : Cursor) (around? : Option Bracket) (e : ReadError) : Prop :=
  ∃ pre c', c.Passes pre c' ∧ Awaits origin c.position around? pre c'.rest ∧
    e.position = c'.position ∧ FormFault origin c'.position c'.rest e.fault

namespace FailsAt

theorem here (hg : Separator g) (hpasses : c.Passes g c')
    (hclosing : ∀ bracket ∈ around?, c'.rest.head? ≠ some bracket.closing)
    (h : e.position = c'.position ∧ FormFault origin c'.position c'.rest e.fault) :
    FailsAt origin c around? e :=
  ⟨g, c', hpasses, .here hg hclosing, h⟩

theorem inside {c₁ c₂ c₃ : Cursor} (hg : Separator g) (hpasses : c.Passes g c₁)
    (hopen : c₁.Passes bracket.opening c₂) (hvs : FormsUpTo origin c₂ vs c₃)
    (h : FailsAt origin c₃ (some bracket) e) : FailsAt origin c around? e := by
  obtain ⟨s, hs, hforms⟩ := hvs
  obtain ⟨pre, c', hpre, hawaits, herror⟩ := h
  rw [hpre.rest, hopen.position, hpasses.position] at hforms
  rw [hs.position, hopen.position, hpasses.position] at hawaits
  exact ⟨_, c', hpasses.trans (hopen.trans (hs.trans hpre)), .inside hg hforms hawaits, herror⟩

end FailsAt

/-- With enough fuel an error comes from a fault. The induction is on the fuel, of which there is
more than twice as much as there are bytes left. -/
theorem failsAt_of_readForm (fuel : Nat) :
    (∀ {c e around?}, 2 * c.rest.length < fuel → c.skipSeparators.rest ≠ [] →
      (∀ bracket ∈ around?, c.skipSeparators.rest.head? ≠ some (Bracket.closing bracket)) →
      readForm origin fuel c = .error e → FailsAt origin c around? e) ∧
    ∀ {c e bracket}, 2 * c.rest.length + 1 < fuel →
      readItems origin fuel (Bracket.closing bracket) c = .error e →
      ∃ vs between, FormsUpTo origin c vs between ∧ FailsAt origin between (some bracket) e := by
  induction fuel with
  | zero => exact ⟨fun h => absurd h (Nat.not_lt_zero _), fun h => absurd h (Nat.not_lt_zero _)⟩
  | succ fuel ih =>
    obtain ⟨ihForm, ihItems⟩ := ih
    constructor
    · intro c e around? hfuel hne hclosing h
      obtain ⟨g, b, bs, hg, hpasses, hrest, hb⟩ := Cursor.exists_passes_skipSeparators hne
      rcases readForm_error_cases h with ⟨hfault, hposition⟩ | ⟨hbracket, hatom⟩ |
        ⟨bracket, hbracket, hitems | ⟨items, behind, hitems, hclose⟩⟩
      · obtain ⟨hfault, t, hhash, ht⟩ := bracket?_eq_error_iff.1 hfault
        refine .here hg hpasses hclosing ⟨hposition, ?_⟩
        rw [hfault, hhash]
        exact .unknownDispatch ht
      · rw [hrest] at hbracket
        exact .here hg hpasses hclosing (formFault_of_readAtom hrest hb hbracket hatom)
      · obtain ⟨bs', hopening⟩ := rest_of_bracket? hbracket
        have hopen : c.skipSeparators.Passes bracket.opening _ := .skip hopening
        have hlength := (hpasses.trans hopen).length
        have hpos := bracket.length_opening_pos
        rw [List.length_append] at hlength
        obtain ⟨vs, between, hvs, hfails⟩ := ihItems (by omega) hitems
        exact .inside hg hpasses hopen hvs hfails
      · obtain ⟨bs', hopening⟩ := rest_of_bracket? hbracket
        exact .here hg hpasses hclosing (formFault_of_closeCollection hopening hitems hclose)
    · intro c e bracket hfuel h
      obtain ⟨⟨hne, hclosing⟩, hitems⟩ := readItems_error_cases h
      obtain ⟨g, b, bs, hg, hpasses, hrest, hb⟩ := Cursor.exists_passes_skipSeparators hne
      have hlength := hpasses.length
      rcases hitems with hx | ⟨x, between, hx, hxs⟩
      · have hstay := Cursor.skipSeparators_of_rest hrest hb
        refine ⟨[], c.skipSeparators, .of_separator hg hpasses, ihForm (by omega) ?_ ?_ hx⟩
        · rwa [hstay]
        · rw [hstay]
          simpa using hclosing
      · have hform := (formAt_of_readForm fuel).1 hx
        have hlength' := hform.length_lt
        obtain ⟨vs, behind, hvs, hfails⟩ := ihItems (by omega) hxs
        exact ⟨x :: vs, behind, hform.cons hg hpasses hvs, hfails⟩

namespace Node

theorem faultAt_of_read {text : Bytes} (h : read text origin = .error e) :
    ∃ pre t, text = pre ++ t ∧ e.position = Position.start.afterAll pre ∧
      FaultAt origin pre t e.fault := by
  by_cases hend : (Cursor.start text).skipSeparators.rest = []
  · obtain ⟨g, t, rfl, hg, ht⟩ := Cursor.skipSeparators_rest_eq_nil_iff.1 hend
    rw [read, readForm_of_end hend] at h
    cases h
    exact ⟨_, [], (List.append_nil _).symm, rfl, .endOfInput hg ht⟩
  rw [read] at h
  split at h
  · rename_i hform
    cases h
    have hfails : FailsAt origin (.start text) none e :=
      (failsAt_of_readForm _).1 (by simp [Cursor.start]) hend (by simp) hform
    obtain ⟨pre, c, hpasses, hawaits, hposition, hfault⟩ := hfails
    rw [hpasses.position] at hposition hfault
    exact ⟨pre, c.rest, hpasses.rest, hposition, .form hawaits hfault⟩
  · rename_i v c hform
    dsimp only at h
    split at h
    · cases h
    · rename_i hbehind
      cases h
      obtain ⟨g, b, bs, hg, hskip, hrest, hb⟩ :=
        Cursor.exists_passes_skipSeparators (by simpa using hbehind)
      obtain ⟨s, hs, hforms⟩ := ((formAt_of_readForm _).1 hform).cons .nil ⟨rfl, rfl⟩
        (.of_separator hg hskip)
      rw [hrest] at hforms
      exact ⟨s, b :: bs, by rw [← hrest]; exact hs.rest, hs.position, .trailingBytes hforms hb⟩

/-- A text cannot be read exactly if it has a fault, and the error tells the fault and its place. -/
theorem read_eq_error_iff {text : Bytes} :
    read text origin = .error e ↔
      ∃ pre t, text = pre ++ t ∧ e.position = Position.start.afterAll pre ∧
        FaultAt origin pre t e.fault := by
  constructor
  · exact faultAt_of_read
  · rintro ⟨pre, t, rfl, hposition, hfault⟩
    rw [hfault.read_eq, ← hposition]

end Node

end Equate
