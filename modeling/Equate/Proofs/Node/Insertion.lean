import Equate.Proofs.Node.Spans
/-!
# Separators put into a text

A separator may be put in front of any node of a text, in front of the closing bracket of any
collection and at the end. The text is still read, as an equal node of the same shape
(`Node.read_insert`). No atom goes on with a separator, also where forms touch, and behind an open
comment the separator ends it or is part of it.
-/

namespace Equate

variable {origin : Nat} {p : Position} {w s t text body pre post : Bytes} {n v : Node}

theorem continuesSymbol_of_isBlank {b : UInt8} (h : isBlank b = true) :
    continuesSymbol b = false := by
  simp only [isBlank, Bool.or_eq_true, beq_iff_eq] at h
  rcases h with (((((rfl | rfl) | rfl) | rfl) | rfl) | rfl) | rfl <;> decide

/-- What is over in front of a text is over in front of a separator. -/
theorem Separator.endsAlike (hw : Separator w) (s : Bytes) : EndsAlike s (w ++ s) := by
  cases hw with
  | nil => exact .refl s
  | blank hb => exact .inr (delimits_iff.2 (stopsAt_cons.2 (continuesSymbol_of_isBlank hb)))
  | comment => exact .inr rfl

/-! ## Separators in front of a node -/

theorem Form.standsFor_separator (h : Form origin p body n t) (hw : Separator w) :
    StandsFor (w ++ body) body n t where
  ne_nil := by simp [h.ne_nil]
  endsAlike := hw.endsAlike body
  forms := by
    intro origin' p'
    obtain ⟨n', hn, hsame⟩ := h.transfer (.refl t) origin' (p'.afterAll w)
    exact ⟨n', .separator hw (.of_form hn), hsame⟩

/-! ## Separators in front of a closing bracket -/

theorem EndsAlike.around (bracket : Bracket) (inner inner' : Bytes) :
    EndsAlike (bracket.around inner) (bracket.around inner') := by
  cases bracket <;> exact .cons _ _ _

theorem Forms.standsFor_around {bracket : Bracket} {inner : Bytes} {items : List Node}
    {mark : Mark} (hinner : Forms origin p inner items (bracket.closing :: t))
    (hv : bracket.node? mark items = some n) (hw : Separator w) :
    StandsFor (bracket.around (inner ++ w)) (bracket.around inner) n t where
  ne_nil := Bracket.around_ne_nil _ _
  endsAlike := .around bracket _ _
  forms := by
    intro origin' p'
    obtain ⟨items', hitems, hsame⟩ := hinner.transfer (hw.endsAlike _) origin'
      (p'.afterAll bracket.opening)
    obtain ⟨n', hn', hsamen⟩ := Bracket.exists_node?
      ⟨origin', some (.covering p' (bracket.around (inner ++ w)))⟩ hv hsame
    have hforms := hitems.append (.of_separator hw)
    rw [List.append_nil] at hforms
    exact ⟨n', .of_form (.collection hforms hn'), hsamen⟩

/-! ## Separators in a text -/

namespace Node

/-- Whether the cut between `pre` and `post` is where a separator may stand in the text of `v`: in
front of a node, in front of the closing bracket of a collection, or at the end. -/
inductive Gap (v : Node) (pre post : Bytes) : Prop
  | node {n : Node} {span : Span} (hn : n.Occurs v) (hspan : n.span? = some span)
      (hpre : span.first = Position.start.afterAll pre)
  | closing {n : Node} {bracket : Bracket} {span : Span} (hn : n.Occurs v)
      (hbracket : n.bracket? = some bracket) (hspan : n.span? = some span)
      (hpre : span.last = Position.start.afterAll pre)
  | ending (hpost : post = [])

theorem read_insert_node {span : Span} (h : read (pre ++ post) origin = .ok v) (hn : n.Occurs v)
    (hspan : n.span? = some span) (hpre : span.first = Position.start.afterAll pre)
    (hw : Separator w) (origin' : Nat) :
    ∃ v', read (pre ++ (w ++ post)) origin' = .ok v' ∧ v'.unmarked = v.unmarked := by
  obtain ⟨before, body, behind, htext, hform, hreplace⟩ := exists_focus h hn
  cases hspan.symm.trans hform.span?
  obtain ⟨rfl, rfl⟩ := Position.eq_of_afterAll_eq htext hpre.symm
  have hread := hreplace _ (hform.standsFor_separator hw) origin'
  rwa [List.append_assoc] at hread

theorem read_insert_closing {bracket : Bracket} {span : Span}
    (h : read (pre ++ post) origin = .ok v) (hn : n.Occurs v) (hbracket : n.bracket? = some bracket)
    (hspan : n.span? = some span) (hpre : span.last = Position.start.afterAll pre)
    (hw : Separator w) (origin' : Nat) :
    ∃ v', read (pre ++ (w ++ post)) origin' = .ok v' ∧ v'.unmarked = v.unmarked := by
  obtain ⟨before, body, behind, htext, hform, hreplace⟩ := exists_focus h hn
  cases hspan.symm.trans hform.span?
  obtain ⟨inner, rfl, hinner, hv⟩ := hform.exists_inner hbracket
  have hcut : pre ++ post =
      before ++ (bracket.opening ++ inner) ++ (bracket.closing :: behind) := by
    simp [htext, Bracket.around]
  rw [Span.covering_around, ← Position.afterAll_append, ← Position.afterAll_append] at hpre
  obtain ⟨rfl, rfl⟩ := Position.eq_of_afterAll_eq hcut hpre.symm
  have hread := hreplace _ (hinner.standsFor_around hv hw) origin'
  simpa [Bracket.around] using hread

/-- The text may end with a comment that is still open. -/
theorem read_insert_ending (h : read text origin = .ok v) (hw : Separator w) (origin' : Nat) :
    ∃ v', read (text ++ w) origin' = .ok v' ∧ v'.unmarked = v.unmarked := by
  obtain ⟨s, t, rfl, hforms, ht⟩ := read_eq_ok_iff.1 h
  have hends : EndsAlike t (t ++ w) := by
    cases t with
    | nil => simpa using hw.endsAlike []
    | cons b t => exact .cons b t (t ++ w)
  obtain ⟨vs, hvs, hsames⟩ := hforms.transfer hends origin' .start
  obtain ⟨v', rfl, hsame⟩ := List.map_eq_singleton_iff.1 hsames
  refine ⟨v', read_eq_ok_iff.2 ?_, hsame⟩
  rw [List.append_assoc]
  rcases ht.append hw with hends | hseparator
  · exact ⟨s, t ++ w, rfl, hvs, hends⟩
  · rw [← List.append_nil (t ++ w)] at hvs
    exact ⟨s ++ (t ++ w), [], by simp, hvs.append (.of_separator hseparator), .inl rfl⟩

/-- With a separator put into a gap, a text is read as an equal node of the same shape. -/
theorem read_insert (h : read (pre ++ post) origin = .ok v) (hgap : Gap v pre post)
    (hw : Separator w) (origin' : Nat) :
    ∃ v', read (pre ++ (w ++ post)) origin' = .ok v' ∧ v.equal v' = true ∧
      v'.unmarked = v.unmarked := by
  have hread : ∃ v', read (pre ++ (w ++ post)) origin' = .ok v' ∧ v'.unmarked = v.unmarked := by
    cases hgap with
    | node hn hspan hpre => exact read_insert_node h hn hspan hpre hw origin'
    | closing hn hbracket hspan hpre =>
      exact read_insert_closing h hn hbracket hspan hpre hw origin'
    | ending hpost =>
      subst hpost
      rw [List.append_nil] at h ⊢
      exact read_insert_ending h hw origin'
  obtain ⟨v', hv', hsame⟩ := hread
  exact ⟨v', hv', equal_of_unmarked_eq (hasNoNaN_of_read h) hsame.symm, hsame⟩

/-- A list up to a form that touches the one before it. -/
def seamBefore : Bytes := utf8 "[\"]\" (5"

/-- The list from there on. -/
def seamBehind : Bytes := utf8 "a-1 1.5e;)\n#\x7bnil\x7d)] ; end"

/-- A comment with its newline and a comma. -/
def seamComment : Bytes := Ascii.semicolon :: (utf8 ")\"" ++ Ascii.newline :: [Ascii.comma])

theorem read_insert_seam :
    ∃ v, read (seamBefore ++ seamBehind) = .ok v ∧ Gap v seamBefore seamBehind ∧
      ∃ v', read (seamBefore ++ (seamComment ++ seamBehind)) 1 = .ok v' ∧ v.equal v' = true ∧
        v'.unmarked = v.unmarked := by
  have hread : (read (seamBefore ++ seamBehind)).toOption.any (fun v => v.children.any fun x =>
      x.children.any fun n => n.span?.any fun span =>
        span.first == Position.start.afterAll seamBefore) = true := by decide +kernel
  have hcomment : Separator seamComment := .comment (by decide) (.blank rfl .nil)
  cases h : read (seamBefore ++ seamBehind) with
  | error e =>
    rw [h] at hread
    cases hread
  | ok v =>
    rw [h] at hread
    obtain ⟨x, hx, hread⟩ := List.any_eq_true.1 hread
    obtain ⟨n, hn, hread⟩ := List.any_eq_true.1 hread
    obtain ⟨span, hspan, hpre⟩ := (Option.any_eq_true _ _).1 hread
    have hgap : Gap v seamBefore seamBehind :=
      .node (.child hx (.child hn (.self n))) hspan (beq_iff_eq.1 hpre)
    exact ⟨v, rfl, hgap, read_insert h hgap hcomment 1⟩

end Node

end Equate
