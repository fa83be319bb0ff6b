import Mathlib.Data.List.Basic
import Equate.Proofs.Node.Position
/-!
# Separators

A separator is a run of blanks and of comments that newlines end. What the reader skips in front of
a form is one (`Cursor.separator_of_skipSeparators`), and it skips all of one
(`Cursor.skipSeparators_append`). Only behind the last form of a text a comment may stay open.
-/

namespace Equate

/-- Blanks, and comments with the newlines that end them. -/
inductive Separator : Bytes → Prop
  | nil : Separator []
  | blank {b : UInt8} {s : Bytes} (hb : isBlank b = true) (h : Separator s) : Separator (b :: s)
  | comment {body s : Bytes} (hbody : Ascii.newline ∉ body) (h : Separator s) :
      Separator (Ascii.semicolon :: (body ++ Ascii.newline :: s))

/-- What can be left of a text when no form is: nothing, or a comment that no newline ends. -/
def EndsText (t : Bytes) : Prop :=
  t = [] ∨ ∃ body, t = Ascii.semicolon :: body ∧ Ascii.newline ∉ body

namespace Separator

variable {g s t : Bytes}

theorem append (hg : Separator g) (hs : Separator s) : Separator (g ++ s) := by
  induction hg with
  | nil => exact hs
  | blank hb _ ih => exact .blank hb ih
  | comment hbody _ ih =>
    rw [List.cons_append, List.append_assoc, List.cons_append]
    exact .comment hbody ih

/-- The part of a separator behind its first newline is a separator. -/
theorem exists_of_newline (hg : Separator g) (hnewline : Ascii.newline ∈ g) :
    ∃ body s, g = body ++ Ascii.newline :: s ∧ Ascii.newline ∉ body ∧ Separator s := by
  induction hg with
  | nil => cases hnewline
  | @blank b s hb h ih =>
    by_cases hb' : Ascii.newline = b
    · exact ⟨[], s, by rw [hb', List.nil_append], List.not_mem_nil, h⟩
    · obtain ⟨body, s', rfl, hbody, hs'⟩ := ih ((List.mem_cons.1 hnewline).resolve_left hb')
      exact ⟨b :: body, s', rfl, by simp [hb', hbody], hs'⟩
  | @comment body s hbody h =>
    have hwhole : Ascii.newline ∉ Ascii.semicolon :: body := by
      simpa [Ascii.newline, Ascii.semicolon] using hbody
    exact ⟨Ascii.semicolon :: body, s, rfl, hwhole, h⟩

/-! ## What the reader skips -/

theorem separatorLength_comment {body : Bytes} (hbody : Ascii.newline ∉ body) (s : Bytes) :
    separatorLength true (body ++ Ascii.newline :: s) =
      body.length + 1 + separatorLength false s := by
  induction body with
  | nil => exact rfl
  | cons b body ih =>
    rw [List.mem_cons, not_or] at hbody
    have hb : (b != Ascii.newline) = true := bne_iff_ne.2 (Ne.symm hbody.1)
    rw [List.cons_append, separatorLength, hb, ih hbody.2, List.length_cons]
    omega

theorem separatorLength_open {body : Bytes} (hbody : Ascii.newline ∉ body) :
    separatorLength true body = body.length := by
  induction body with
  | nil => rfl
  | cons b body ih =>
    rw [List.mem_cons, not_or] at hbody
    have hb : (b != Ascii.newline) = true := bne_iff_ne.2 (Ne.symm hbody.1)
    rw [separatorLength, hb, ih hbody.2, List.length_cons, Nat.add_comm]

theorem separatorLength_append (hg : Separator g) (t : Bytes) :
    separatorLength false (g ++ t) = g.length + separatorLength false t := by
  induction hg with
  | nil => simp
  | @blank b s hb _ ih =>
    have hcomment : b ≠ Ascii.semicolon := by
      rintro rfl
      cases hb
    rw [List.cons_append, separatorLength, if_neg hcomment, if_pos hb, ih, List.length_cons]
    omega
  | @comment body s hbody _ ih =>
    rw [List.cons_append, List.append_assoc, List.cons_append, separatorLength, if_pos rfl,
      separatorLength_comment hbody, ih]
    simp only [List.length_cons, List.length_append]
    omega

end Separator

theorem EndsText.separatorLength_eq {t : Bytes} (h : EndsText t) :
    separatorLength false t = t.length := by
  rcases h with rfl | ⟨body, rfl, hbody⟩
  · rfl
  · rw [separatorLength, if_pos rfl, Separator.separatorLength_open hbody, List.length_cons,
      Nat.add_comm]

/-- Every text is a separator and what stands behind it, which starts with no separator or ends the
text. -/
theorem exists_separator (s : Bytes) :
    ∃ g t, s = g ++ t ∧ Separator g ∧ (EndsText t ∨ t ≠ [] ∧ separatorLength false t = 0) := by
  cases s with
  | nil => exact ⟨[], [], rfl, .nil, .inl (.inl rfl)⟩
  | cons b bs =>
    by_cases hcomment : b = Ascii.semicolon
    · subst hcomment
      by_cases hnewline : Ascii.newline ∈ bs
      · obtain ⟨body, rest, rfl, hbody⟩ := List.eq_append_cons_of_mem hnewline
        obtain ⟨g, t, rfl, hg, ht⟩ := exists_separator rest
        exact ⟨_, t, by simp, .comment hbody hg, ht⟩
      · exact ⟨[], _, rfl, .nil, .inl (.inr ⟨bs, rfl, hnewline⟩)⟩
    by_cases hblank : isBlank b = true
    · obtain ⟨g, t, rfl, hg, ht⟩ := exists_separator bs
      exact ⟨b :: g, t, rfl, .blank hblank hg, ht⟩
    · refine ⟨[], _, rfl, .nil, .inr ⟨List.cons_ne_nil b bs, ?_⟩⟩
      rw [separatorLength, if_neg hcomment, if_neg hblank]
termination_by s.length

/-- A separator behind a text that ends closes a comment that was open, or is part of it. -/
theorem EndsText.append {t g : Bytes} (ht : EndsText t) (hg : Separator g) :
    EndsText (t ++ g) ∨ Separator (t ++ g) := by
  rcases ht with rfl | ⟨body, rfl, hbody⟩
  · exact .inr hg
  · by_cases hnewline : Ascii.newline ∈ g
    · obtain ⟨body', s, rfl, hbody', hs⟩ := hg.exists_of_newline hnewline
      rw [List.cons_append, ← List.append_assoc]
      exact .inr (.comment (by simp [hbody, hbody']) hs)
    · exact .inl (.inr ⟨body ++ g, rfl, by simp [hbody, hnewline]⟩)

/-! ## First bytes -/

/-- Whether a blank or a comment starts with this byte. -/
def opensSeparator (b : UInt8) : Bool := isBlank b || b == Ascii.semicolon

theorem separatorLength_of_opensSeparator {b : UInt8} (h : opensSeparator b = false) (bs : Bytes) :
    separatorLength false (b :: bs) = 0 := by
  simp only [opensSeparator, Bool.or_eq_false_iff, beq_eq_false_iff_ne] at h
  rw [separatorLength, if_neg h.2, h.1]
  rfl

theorem separatorLength_ne_zero {b : UInt8} (h : opensSeparator b = true) (bs : Bytes) :
    separatorLength false (b :: bs) ≠ 0 := by
  simp only [opensSeparator, Bool.or_eq_true, beq_iff_eq] at h
  rcases h with hblank | rfl
  · rw [separatorLength, if_pos hblank]
    split <;> simp
  · simp [separatorLength]

/-! ## Cursors -/

namespace Cursor

variable {c c' c'' : Cursor} {g s t : Bytes}

/-- Whether the bytes `s` stand between two cursors. -/
structure Passes (c : Cursor) (s : Bytes) (c' : Cursor) : Prop where
  rest : c.rest = s ++ c'.rest
  position : c'.position = c.position.afterAll s

theorem passes_mk (s t : Bytes) (p : Position) : Passes ⟨s ++ t, p⟩ s ⟨t, p.afterAll s⟩ :=
  ⟨rfl, rfl⟩

theorem Passes.trans (h : c.Passes s c') (h' : c'.Passes t c'') : c.Passes (s ++ t) c'' where
  rest := by rw [h.rest, h'.rest, List.append_assoc]
  position := by rw [h'.position, h.position, Position.afterAll_append]

theorem Passes.skip (h : c.rest = s ++ t) : c.Passes s (c.skip s.length) where
  rest := by simp [Cursor.skip, h]
  position := by simp [Cursor.skip, h]

theorem Passes.length (h : c.Passes s c') : c.rest.length = s.length + c'.rest.length := by
  rw [h.rest, List.length_append]

/-- The reader moves over bytes of the text only. -/
theorem passes_skip (c : Cursor) (n : Nat) : c.Passes (c.rest.take n) (c.skip n) :=
  ⟨(List.take_append_drop n c.rest).symm, rfl⟩

theorem exists_skipSeparators (c : Cursor) : ∃ g, c.Passes g c.skipSeparators :=
  ⟨_, c.passes_skip _⟩

theorem skipSeparators_append (hg : Separator g) (t : Bytes) (p : Position) :
    (Cursor.mk (g ++ t) p).skipSeparators = (Cursor.mk t (p.afterAll g)).skipSeparators := by
  simp only [skipSeparators, hg.separatorLength_append, skip, List.take_length_add_append,
    List.drop_length_add_append, Position.afterAll_append]

/-- Unless the text ends, what the reader skips is a separator. -/
theorem separator_of_skipSeparators (h : c.skipSeparators.rest ≠ []) :
    ∃ g, Separator g ∧ c.Passes g c.skipSeparators := by
  obtain ⟨s, p⟩ := c
  obtain ⟨g, t, rfl, hg, ht | ⟨-, ht⟩⟩ := exists_separator s
  · rw [skipSeparators_append hg] at h
    simp [skipSeparators, skip, ht.separatorLength_eq] at h
  · have hstay : (Cursor.mk t (p.afterAll g)).skipSeparators = ⟨t, p.afterAll g⟩ := by
      simp [skipSeparators, skip, ht]
    rw [skipSeparators_append hg, hstay]
    exact ⟨g, hg, passes_mk g t p⟩

/-- The reader comes to the end of the text exactly if nothing is left but a separator, and perhaps
an open comment. -/
theorem skipSeparators_rest_eq_nil_iff :
    c.skipSeparators.rest = [] ↔ ∃ g t, c.rest = g ++ t ∧ Separator g ∧ EndsText t := by
  obtain ⟨s, p⟩ := c
  constructor
  · intro h
    obtain ⟨g, t, rfl, hg, ht | ⟨hne, ht⟩⟩ := exists_separator s
    · exact ⟨g, t, rfl, hg, ht⟩
    · rw [skipSeparators_append hg] at h
      exact absurd h (by simpa [skipSeparators, skip, ht] using hne)
  · rintro ⟨g, t, rfl, hg, ht⟩
    rw [skipSeparators_append hg]
    simp [skipSeparators, skip, ht.separatorLength_eq]

theorem skipSeparators_of_end (h : c.skipSeparators.rest = []) :
    c.skipSeparators = ⟨[], c.position.afterAll c.rest⟩ := by
  have hpasses := c.passes_skip (separatorLength false c.rest)
  have hrest := hpasses.rest
  rw [show (c.skip (separatorLength false c.rest)).rest = [] from h, List.append_nil] at hrest
  rw [hrest, ← h, ← hpasses.position]
  rfl

theorem skipSeparators_of_opensSeparator {b : UInt8} (h : opensSeparator b = false) (bs : Bytes)
    (p : Position) : (mk (b :: bs) p).skipSeparators = ⟨b :: bs, p⟩ := by
  rw [skipSeparators, separatorLength_of_opensSeparator h]
  rfl

/-- Unless the text ends, no separator is left where the reader has skipped one. -/
theorem exists_passes_skipSeparators (h : c.skipSeparators.rest ≠ []) :
    ∃ g b bs, Separator g ∧ c.Passes g c.skipSeparators ∧ c.skipSeparators.rest = b :: bs ∧
      opensSeparator b = false := by
  obtain ⟨g, hg, hpasses⟩ := separator_of_skipSeparators h
  obtain ⟨b, bs, hrest⟩ := List.exists_cons_of_ne_nil h
  refine ⟨g, b, bs, hg, hpasses, hrest, ?_⟩
  have hstay : (mk (b :: bs) c.skipSeparators.position).skipSeparators.rest = b :: bs := by
    have hc : c = ⟨g ++ b :: bs, c.position⟩ := by rw [← hrest, ← hpasses.rest]
    rw [hpasses.position, ← skipSeparators_append hg, ← hc, hrest]
  by_contra hb
  rw [Bool.not_eq_false] at hb
  have hlength := separatorLength_ne_zero hb bs
  have hdrop := congrArg List.length hstay
  simp only [skipSeparators, skip, List.length_drop, List.length_cons] at hdrop
  omega

theorem skipSeparators_of_rest {b : UInt8} {bs : Bytes} (hrest : c.skipSeparators.rest = b :: bs)
    (hb : opensSeparator b = false) : c.skipSeparators.skipSeparators = c.skipSeparators := by
  have hc : c.skipSeparators = ⟨b :: bs, c.skipSeparators.position⟩ := by rw [← hrest]
  rw [hc, skipSeparators_of_opensSeparator hb]

end Cursor

end Equate
