import Equate.Proofs.Node.Focus
/-!
# What stands in front of a form

In front of a form stand separators and opening brackets, and behind each of these the forms of the
collection that come before it: `LeadsTo` says when bytes bring the reader to a form. What it does
with the whole text is then to read this form and go on (`Node.read_of_leadsTo`). So a fault of the
form is one of the text, and a node that is read there occurs in the node of the text.
-/

namespace Equate

variable {origin : Nat} {p : Position} {g s pre t : Bytes} {v : Node} {vs : List Node}

/-- Whether the bytes `pre`, the first of them at `p`, bring the reader to a form at the start of
`t`. -/
inductive LeadsTo (origin : Nat) : Position → Bytes → Bytes → Prop
  | separator {p : Position} {g t : Bytes} (hg : Separator g) : LeadsTo origin p g t
  | inside {p : Position} {g s pre t : Bytes} {bracket : Bracket} {vs : List Node}
      (hg : Separator g)
      (hs : Forms origin ((p.afterAll g).afterAll bracket.opening) s vs (pre ++ t))
      (h : LeadsTo origin (((p.afterAll g).afterAll bracket.opening).afterAll s) pre t) :
      LeadsTo origin p (g ++ (bracket.opening ++ (s ++ pre))) t

/-! ## Items in front of the form -/

theorem Forms.length_le (h : Forms origin p s vs t) : vs.length ≤ s.length := by
  induction h with
  | nil => exact le_rfl
  | separator _ _ ih =>
    rw [List.length_append]
    omega
  | atom ha _ ih =>
    have hpos := List.length_pos_iff.2 ha.ne_nil
    rw [List.length_append, List.length_cons]
    omega
  | @collection _ bracket inner _ _ _ _ _ _ _ _ _ ih =>
    have hpos := List.length_pos_iff.2 (bracket.around_ne_nil inner)
    rw [List.length_append, List.length_cons]
    omega

theorem Form.readItems_append {bracket : Bracket} (h : Form origin p s v t) (fuel : Nat)
    (hfuel : 2 * s.length ≤ fuel) :
    readItems origin (fuel + 1) bracket.closing ⟨s ++ t, p⟩ =
      (readItems origin fuel bracket.closing ⟨t, p.afterAll s⟩).map (Prod.map (v :: ·) id) := by
  have hread := readForm_of_form h fuel hfuel
  obtain ⟨b, bs, rfl, hb⟩ := h.exists_startsForm
  rw [List.cons_append] at hread ⊢
  rw [readItems_startsForm hb, hread, Except.bind]

/-- The induction is on the items. Each of them takes one unit of the fuel. -/
theorem Forms.readItems_append {bracket : Bracket} (h : Forms origin p s vs t) (fuel : Nat)
    (hfuel : 2 * s.length < fuel + vs.length) :
    readItems origin (fuel + vs.length) bracket.closing ⟨s ++ t, p⟩ =
      (readItems origin fuel bracket.closing ⟨t, p.afterAll s⟩).map (Prod.map (vs ++ ·) id) := by
  induction vs generalizing p s with
  | nil =>
    obtain ⟨fuel, rfl⟩ : ∃ n, fuel = n + 1 := ⟨fuel - 1, by simp at hfuel; omega⟩
    rw [List.length_nil, Nat.add_zero, readItems_separator h.separator_of_nil]
    cases readItems origin (fuel + 1) bracket.closing ⟨t, p.afterAll s⟩ <;> rfl
  | cons v vs ih =>
    obtain ⟨g, a, s', rfl, hg, hform, hs'⟩ := h.exists_of_cons
    have hpos := List.length_pos_iff.2 hform.ne_nil
    simp only [List.length_append, List.length_cons] at hfuel
    rw [List.append_assoc, List.append_assoc, List.length_cons, ← Nat.add_assoc,
      readItems_separator hg, hform.readItems_append _ (by omega), ← Position.afterAll_append,
      ih hs' (by omega), ← List.append_assoc, Position.afterAll_append p (g ++ a)]
    cases readItems origin fuel bracket.closing _ <;> rfl

/-! ## The form -/

namespace LeadsTo

/-- What stands in front of the form is a separator and what a form starts with. -/
theorem exists_separator (h : LeadsTo origin p pre t)
    (ht : ∃ b bs, t = b :: bs ∧ startsForm b = true) :
    ∃ g b bs, pre ++ t = g ++ b :: bs ∧ Separator g ∧ startsForm b = true := by
  cases h with
  | separator hg =>
    obtain ⟨b, bs, rfl, hb⟩ := ht
    exact ⟨pre, b, bs, rfl, hg, hb⟩
  | @inside _ g s pre _ bracket vs hg _ _ =>
    obtain ⟨b, bs, heq, hb⟩ := startsForm_opening bracket (s ++ pre ++ t)
    exact ⟨g, b, bs, by simp [← heq], hg, hb⟩

/-- Among items, the reader reads the form that it is brought to as the next one. -/
theorem readItems_eq {bracket : Bracket} (h : LeadsTo origin p pre t)
    (ht : ∃ b bs, t = b :: bs ∧ startsForm b = true) (fuel : Nat) :
    readItems origin (fuel + 2) bracket.closing ⟨pre ++ t, p⟩ =
      (readForm origin (fuel + 1) ⟨pre ++ t, p⟩).bind fun x =>
        (readItems origin (fuel + 1) bracket.closing x.2).map (Prod.map (x.1 :: ·) id) := by
  obtain ⟨g, b, bs, heq, hg, hb⟩ := h.exists_separator ht
  rw [heq, readItems_separator hg, readForm_separator hg, readItems_startsForm hb]

end LeadsTo

/-! ## The text around the form -/

theorem exists_of_bind_eq_ok {ε α β : Type} {x : Except ε α} {f : α → Except ε β} {b : β}
    (h : x.bind f = .ok b) : ∃ a, x = .ok a ∧ f a = .ok b := by
  cases x with
  | error e => cases h
  | ok a => exact ⟨a, rfl, h⟩

/-- What the reader does behind an item of a collection that opened at `c`: it reads the others and
closes the collection. The items before are `vs`. -/
def closeBehind (origin fuel : Nat) (c : Cursor) (bracket : Bracket) (vs : List Node)
    (item : Node × Cursor) : Except ReadError (Node × Cursor) :=
  (readItems origin fuel bracket.closing item.2).bind fun x =>
    closeCollection origin c bracket (vs ++ item.1 :: x.1) x.2

theorem mem_children_of_closeBehind {fuel : Nat} {c c' : Cursor} {bracket : Bracket}
    {item : Node × Cursor} (h : closeBehind origin fuel c bracket vs item = .ok (v, c')) :
    item.1 ∈ v.children := by
  obtain ⟨x, -, hclose⟩ := exists_of_bind_eq_ok h
  rw [closeCollection] at hclose
  split at hclose
  · cases hclose
  split at hclose
  · rename_i node hnode
    cases hclose
    obtain ⟨-, -, hchildren⟩ := Bracket.of_node? hnode
    simp [hchildren]
  · cases hclose

namespace LeadsTo

theorem readForm_inside {bracket : Bracket}
    (hs : Forms origin (p.afterAll bracket.opening) s vs (pre ++ t))
    (h : LeadsTo origin ((p.afterAll bracket.opening).afterAll s) pre t)
    (ht : ∃ b bs, t = b :: bs ∧ startsForm b = true) (fuel : Nat)
    (hfuel : 2 * s.length < fuel + 2 + vs.length) :
    readForm origin (fuel + 2 + vs.length + 1) ⟨bracket.opening ++ (s ++ (pre ++ t)), p⟩ =
      (readForm origin (fuel + 1)
        ⟨pre ++ t, (p.afterAll bracket.opening).afterAll s⟩).bind
          (closeBehind origin (fuel + 1) ⟨bracket.opening ++ (s ++ (pre ++ t)), p⟩ bracket vs) := by
  rw [readForm_opening, hs.readItems_append _ hfuel, h.readItems_eq ht]
  cases readForm origin (fuel + 1) ⟨pre ++ t, (p.afterAll bracket.opening).afterAll s⟩ with
  | error e => rfl
  | ok item =>
    simp only [Except.bind, closeBehind]
    cases readItems origin (fuel + 1) bracket.closing item.2 <;> rfl

/-- The reader reads the form and goes on to a node in which it occurs. The induction is on the
brackets around the form. -/
theorem readForm_eq (h : LeadsTo origin p pre t) (ht : ∃ b bs, t = b :: bs ∧ startsForm b = true)
    (fuel : Nat) (hfuel : 2 * pre.length < fuel) :
    ∃ m k, readForm origin fuel ⟨pre ++ t, p⟩ =
        (readForm origin (m + 1) ⟨t, p.afterAll pre⟩).bind k ∧
      ∀ x v c, k x = .ok (v, c) → x.1.Occurs v := by
  induction h generalizing fuel with
  | @separator p g t hg =>
    obtain ⟨fuel, rfl⟩ : ∃ n, fuel = n + 1 := ⟨fuel - 1, by omega⟩
    refine ⟨fuel, .ok, ?_, ?_⟩
    · rw [readForm_separator hg]
      cases readForm origin (fuel + 1) ⟨t, p.afterAll g⟩ <;> rfl
    · intro x v c h
      cases h
      exact .self v
  | @inside p g s pre t bracket vs hg hs h ih =>
    have hopening := bracket.length_opening_pos
    have hle := hs.length_le
    simp only [List.length_append] at hfuel
    obtain ⟨fuel, rfl⟩ : ∃ n, fuel = n + 2 + vs.length + 1 :=
      ⟨fuel - vs.length - 3, by omega⟩
    obtain ⟨m, k, hread, hk⟩ := ih ht (fuel + 1) (by omega)
    refine ⟨m, fun x => (k x).bind (closeBehind origin (fuel + 1)
      ⟨bracket.opening ++ (s ++ (pre ++ t)), p.afterAll g⟩ bracket vs), ?_, fun x v c h => ?_⟩
    · rw [List.append_assoc, readForm_separator hg, List.append_assoc, List.append_assoc,
        readForm_inside hs h ht fuel (by omega), hread]
      simp only [Position.afterAll_append]
      cases readForm origin (m + 1) _ <;> rfl
    · obtain ⟨y, hy, hclose⟩ := exists_of_bind_eq_ok h
      exact .child (mem_children_of_closeBehind hclose) (hk x y.1 y.2 hy)

end LeadsTo

/-- To read a text is to read the form that its first bytes lead to and to go on to a node in which
it occurs. -/
theorem Node.read_of_leadsTo (h : LeadsTo origin .start pre t)
    (ht : ∃ b bs, t = b :: bs ∧ startsForm b = true) :
    ∃ m k, read (pre ++ t) origin =
        (readForm origin (m + 1) ⟨t, Position.start.afterAll pre⟩).bind k ∧
      ∀ x v, k x = .ok v → x.1.Occurs v := by
  obtain ⟨m, k, hread, hk⟩ := h.readForm_eq ht (2 * (pre ++ t).length + 2) (by simp; omega)
  refine ⟨m, fun x => (k x).bind fun y =>
    if y.2.skipSeparators.rest.isEmpty then .ok y.1
    else .error (y.2.skipSeparators.error .trailingBytes), ?_, fun x v h => ?_⟩
  · rw [read, Cursor.start, hread]
    cases readForm origin (m + 1) ⟨t, Position.start.afterAll pre⟩ with
    | error e => rfl
    | ok x =>
      simp only [Except.bind]
      cases k x <;> rfl
  · obtain ⟨y, hy, hend⟩ := exists_of_bind_eq_ok h
    split at hend
    · cases hend
      exact hk x y.1 y.2 hy
    · cases hend

/-- Whether the bytes `body` behind `pre` are read as the node `n` in front of `t`, and in no other
way in the whole text. -/
structure ReadsThere (origin : Nat) (pre body t : Bytes) (n : Node) : Prop where
  form (fuel : Nat) : readForm origin (fuel + 1) ⟨body ++ t, Position.start.afterAll pre⟩ =
    .ok (n, ⟨t, Position.start.afterAll (pre ++ body)⟩)
  occurs {v : Node} (h : Node.read (pre ++ (body ++ t)) origin = .ok v) : n.Occurs v
  unique {v n' : Node} {span : Span} (h : Node.read (pre ++ (body ++ t)) origin = .ok v)
    (hn : n'.Occurs v) (hspan : n'.span? = some span)
    (hfirst : span.first = Position.start.afterAll pre) : n' = n

theorem Atom.readsThere {make : Mark → Node} (ha : Atom s make t)
    (h : LeadsTo origin .start pre (s ++ t)) :
    ReadsThere origin pre s t
      (make ⟨origin, some (.covering (Position.start.afterAll pre) s)⟩) where
  form fuel := by rw [readForm_atom ha, Position.afterAll_append]
  occurs := by
    intro v hread
    obtain ⟨b, bs, rfl, hb⟩ := ha.exists_startsForm
    obtain ⟨m, k, heq, hk⟩ := Node.read_of_leadsTo h ⟨b, bs ++ t, rfl, hb⟩
    rw [heq, readForm_atom ha] at hread
    exact hk _ v hread
  unique := by
    intro v n' span hread hn hspan hfirst
    obtain ⟨pre', body', post, htext, hform, -⟩ := Node.exists_focus hread hn
    cases hspan.symm.trans hform.span?
    obtain ⟨rfl, hbody⟩ := Position.eq_of_afterAll_eq htext hfirst.symm
    have hread' := readForm_of_form hform (2 * body'.length + 1) (by omega)
    rw [← hbody, readForm_atom ha] at hread'
    exact (congrArg Prod.fst (Except.ok.inj hread')).symm

end Equate
