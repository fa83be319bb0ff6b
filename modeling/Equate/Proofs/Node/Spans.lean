import Equate.Proofs.Node.Focus
/-!
# Spans are exact

The bytes that the span of a node cuts out of its text are a text of their own: they are read as
this node, but for the marks (`Node.read_span`). So no span takes a byte too many or too few, also
where forms touch.
-/

namespace Equate.Node

/-- The span of a node, at any depth, cuts the bytes out of the text that alone are read as the
node. -/
theorem read_span {text : Bytes} {origin : Nat} {v n : Node} (h : read text origin = .ok v)
    (hn : n.Occurs v) (origin' : Nat) :
    ∃ span n', n.span? = some span ∧ read (span.cut text) origin' = .ok n' ∧
      n'.unmarked = n.unmarked := by
  obtain ⟨pre, body, post, rfl, hform, -⟩ := exists_focus h hn
  -- in front of the end of a text no atom goes on
  obtain ⟨n', hform', hsame⟩ := hform.transfer (.nil post) origin' .start
  refine ⟨_, n', hform.span?, ?_, hsame⟩
  rw [Span.cut_covering pre hform.ne_nil]
  exact read_eq_ok_iff.2 ⟨body, [], (List.append_nil body).symm, .of_form hform', .inl rfl⟩

/-- Forms that touch, and strings and comments with newlines and brackets in them. -/
def touching : Bytes :=
  utf8 "; a list\n(5a 1:k -\"s\n\\\"\"a+1.5e;)\n#\x7b[]\x7d2.e-1\"\n\"[nil\x7b:a\n-3\x7d])"

theorem read_span_touching :
    ∃ v x n, read touching = .ok v ∧ x ∈ v.children ∧ n ∈ x.children ∧ n.bracket? = some .map ∧
      ∃ span n', n.span? = some span ∧ read (span.cut touching) 1 = .ok n' ∧
        n'.unmarked = n.unmarked := by
  have hread : (read touching).toOption.any (fun v => v.children.any fun x =>
      x.children.any fun n => n.bracket? == some .map) = true := by decide +kernel
  cases h : read touching with
  | error e =>
    rw [h] at hread
    cases hread
  | ok v =>
    rw [h] at hread
    obtain ⟨x, hx, hread⟩ := List.any_eq_true.1 hread
    obtain ⟨n, hn, hmap⟩ := List.any_eq_true.1 hread
    exact ⟨v, x, n, rfl, hx, hn, beq_iff_eq.1 hmap,
      read_span h (.child hx (.child hn (.self n))) 1⟩

end Equate.Node
