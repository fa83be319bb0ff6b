import Equate.Proofs.Node.Spans
/-!
# Spans tile the text

No byte of a text that is read is dropped. What stands outside of the root is a separator, and
between the brackets of a collection the spans of its children follow each other with separators
between them and around (`Tiled`). `Node.tilesText_of_read` says so for every text and every
collection in it.
-/

namespace Equate

variable {origin : Nat} {p : Position} {g s t text : Bytes} {n v x : Node} {xs vs : List Node}

/-- Whether the bytes `s`, the first of them at `p`, are the bytes that the nodes `xs` span, in
order, with separators between them and around. -/
inductive Tiled : Position → Bytes → List Node → Prop
  | gap {p : Position} {g : Bytes} (hg : Separator g) : Tiled p g []
  | child {p : Position} {g body s : Bytes} {x : Node} {xs : List Node} (hg : Separator g)
      (hbody : body ≠ []) (hx : x.span? = some (.covering (p.afterAll g) body))
      (h : Tiled (p.afterAll (g ++ body)) s xs) : Tiled p (g ++ (body ++ s)) (x :: xs)

namespace Tiled

theorem separator (hg : Separator g) (h : Tiled (p.afterAll g) s xs) : Tiled p (g ++ s) xs := by
  cases h with
  | gap hg' => exact .gap (hg.append hg')
  | child hg' hbody hx h =>
    rw [← Position.afterAll_append] at hx h
    rw [← List.append_assoc]
    exact .child (hg.append hg') hbody hx (by rwa [List.append_assoc])

theorem span_of_mem (h : Tiled p s xs) (hx : x ∈ xs) :
    ∃ span, x.span? = some span ∧ p ≤ span.first ∧ span.last < p.afterAll s := by
  induction h with
  | gap => cases hx
  | @child p g body s y ys hg hbody hy _ ih =>
    rcases List.mem_cons.1 hx with rfl | hx
    · refine ⟨_, hy, Position.le_afterAll p g, ?_⟩
      rw [Position.afterAll_append, Position.afterAll_append]
      exact (Span.last_covering_lt hbody _).trans_le (Position.le_afterAll _ s)
    · obtain ⟨span, hspan, hfirst, hlast⟩ := ih hx
      refine ⟨span, hspan, (Position.le_afterAll p _).trans hfirst, ?_⟩
      rwa [← List.append_assoc, Position.afterAll_append]

/-- The nodes stand one behind the other. -/
theorem ordered (h : Tiled p s xs) :
    xs.Pairwise fun x y => ∀ s ∈ x.span?, ∀ s' ∈ y.span?, s.last < s'.first := by
  induction h with
  | gap => exact .nil
  | @child p g body _ x _ _ hbody hx hbehind ih =>
    refine .cons (fun y hy s hs s' hs' => ?_) ih
    obtain ⟨span, hspan, hfirst, -⟩ := hbehind.span_of_mem hy
    cases hx.symm.trans hs
    cases hspan.symm.trans hs'
    rw [Position.afterAll_append] at hfirst
    exact (Span.last_covering_lt hbody _).trans_le hfirst

end Tiled

theorem Forms.tiled (h : Forms origin p s vs t) : Tiled p s vs := by
  induction h with
  | nil => exact .gap .nil
  | separator hg _ ih => exact ih.separator hg
  | atom ha _ ih => exact .child .nil ha.ne_nil (Form.atom ha).span? ih
  | collection hinner hv _ _ ih =>
    exact .child .nil (Bracket.around_ne_nil _ _) (Form.collection hinner hv).span? ih

/-- Whether the bytes that the span cuts out of a text are brackets with the nodes `xs` between
them: separators fill the gaps, the nodes stand one behind the other, and they stand strictly
between the brackets. -/
structure Encloses (text : Bytes) (span : Span) (bracket : Bracket) (xs : List Node) : Prop where
  tiled : ∃ inner, span.cut text = bracket.around inner ∧
    Tiled (span.first.afterAll bracket.opening) inner xs
  ordered : xs.Pairwise fun x y => ∀ s ∈ x.span?, ∀ s' ∈ y.span?, s.last < s'.first
  within : ∀ x ∈ xs, ∃ s, x.span? = some s ∧ span.first.afterAll bracket.opening ≤ s.first ∧
    s.last < span.last

theorem Form.encloses {pre body post : Bytes} {bracket : Bracket}
    (h : Form origin (Position.start.afterAll pre) body n post) (hn : n.bracket? = some bracket) :
    Encloses (pre ++ (body ++ post)) (.covering (Position.start.afterAll pre) body) bracket
      n.children := by
  have hcut := Span.cut_covering pre h.ne_nil post
  obtain ⟨inner, rfl, hinner, -⟩ := h.exists_inner hn
  refine ⟨⟨inner, hcut, hinner.tiled⟩, hinner.tiled.ordered, fun x hx => ?_⟩
  rw [Span.covering_around]
  exact hinner.tiled.span_of_mem hx

/-- Whether the spans of `v` and of the nodes below it tile a text: outside of the root are
separators, and perhaps a comment at the end that no newline ends, no span ends before it starts,
and every collection encloses its children. -/
structure TilesText (text : Bytes) (v : Node) : Prop where
  root : ∃ span before g t, v.span? = some span ∧ text = before ++ (span.cut text ++ (g ++ t)) ∧
    span.first = Position.start.afterAll before ∧ Separator before ∧ Separator g ∧ EndsText t
  below (n : Node) (hn : n.Occurs v) : ∃ span, n.span? = some span ∧ span.first ≤ span.last ∧
    ∀ bracket, n.bracket? = some bracket → Encloses text span bracket n.children

namespace Node

/-- The nodes of a text that is read tile it. -/
theorem tilesText_of_read (h : read text origin = .ok v) : TilesText text v where
  root := by
    obtain ⟨s, t, rfl, hforms, ht⟩ := read_eq_ok_iff.1 h
    obtain ⟨before, body, g, rfl, hbefore, hform, hbehind⟩ := hforms.exists_of_cons
    have htext : before ++ (body ++ g) ++ t = before ++ (body ++ (g ++ t)) := by simp
    refine ⟨_, before, g, t, hform.span?, ?_, rfl, hbefore, hbehind.separator_of_nil, ht⟩
    rw [htext, Span.cut_covering before hform.ne_nil]
  below := by
    intro n hn
    obtain ⟨pre, body, post, rfl, hform, -⟩ := exists_focus h hn
    exact ⟨_, hform.span?, Span.first_le_last_covering _ _, fun _ => hform.encloses⟩

theorem tilesText_touching : ∃ v, read touching = .ok v ∧ TilesText touching v := by
  have hread : (read touching).toOption.isSome = true := by decide +kernel
  cases h : read touching with
  | error e =>
    rw [h] at hread
    cases hread
  | ok v => exact ⟨v, rfl, tilesText_of_read h⟩

end Node

end Equate
