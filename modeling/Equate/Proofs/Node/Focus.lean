import Equate.Proofs.Node.Grammar
/-!
# Nodes and their bytes

Every node of a text, at any depth, has bytes of its own in it: `Forms.focus` gives the bytes
before it, its own and the ones behind it (`FocusAt`). Its own bytes are a form, and other bytes may
take their place. If these are read as a node that is alike, all forms stay alike.
-/

namespace Equate

variable {origin : Nat} {p : Position} {g s t body body' pre post : Bytes} {n v x : Node}
  {vs : List Node}

theorem EndsAlike.append_right (h : EndsAlike s t) (hs : s ≠ []) (ht : t ≠ []) (rest : Bytes) :
    EndsAlike (s ++ rest) (t ++ rest) := by
  obtain ⟨b, s, rfl⟩ := List.exists_cons_of_ne_nil hs
  obtain ⟨c, t, rfl⟩ := List.exists_cons_of_ne_nil ht
  exact h

/-- Whether the bytes `body'` can stand for those of `n` in front of `t`, at any place. -/
structure StandsFor (body' body : Bytes) (n : Node) (t : Bytes) : Prop where
  ne_nil : body' ≠ []
  endsAlike : EndsAlike body body'
  forms (origin : Nat) (p : Position) :
    ∃ n', Forms origin p body' [n'] t ∧ n'.unmarked = n.unmarked

/-- Whether `n` has the bytes `body` among the forms `s`, with `pre` before and `post` behind
them. -/
structure FocusAt (origin : Nat) (p : Position) (s : Bytes) (vs : List Node) (t : Bytes) (n : Node)
    (pre body post : Bytes) : Prop where
  bytes : s = pre ++ (body ++ post)
  form : Form origin (p.afterAll pre) body n (post ++ t)
  replace {body' : Bytes} (h : StandsFor body' body n (post ++ t)) (origin' : Nat) (p' : Position) :
    ∃ vs', Forms origin' p' (pre ++ (body' ++ post)) vs' t ∧
      vs'.map Node.unmarked = vs.map Node.unmarked

namespace FocusAt

theorem first (h : Form origin p body v (s ++ t)) (hs : Forms origin (p.afterAll body) s vs t) :
    FocusAt origin p (body ++ s) (v :: vs) t v [] body s where
  bytes := rfl
  form := h
  replace := by
    intro body' hbody origin' p'
    obtain ⟨n', hn, hsame⟩ := hbody.forms origin' p'
    obtain ⟨vs', hvs, hsames⟩ := hs.transfer (.refl t) origin' (p'.afterAll body')
    refine ⟨n' :: vs', hn.append hvs, ?_⟩
    rw [List.map_cons, List.map_cons, hsame, hsames]

theorem separator (hg : Separator g)
    (h : FocusAt origin (p.afterAll g) s vs t n pre body post) :
    FocusAt origin p (g ++ s) vs t n (g ++ pre) body post where
  bytes := by rw [h.bytes, List.append_assoc]
  form := by rw [Position.afterAll_append]; exact h.form
  replace := by
    intro body' hbody origin' p'
    obtain ⟨vs', hvs, hsames⟩ := h.replace hbody origin' (p'.afterAll g)
    rw [List.append_assoc]
    exact ⟨vs', .separator hg hvs, hsames⟩

/-- A form does not go on with what takes the place of bytes behind it. -/
theorem behind {a : Bytes} (ha : Form origin p a v (s ++ t))
    (h : FocusAt origin (p.afterAll a) s vs t n pre body post) :
    FocusAt origin p (a ++ s) (v :: vs) t n (a ++ pre) body post where
  bytes := by rw [h.bytes, List.append_assoc]
  form := by rw [Position.afterAll_append]; exact h.form
  replace := by
    intro body' hbody origin' p'
    have hends : EndsAlike (s ++ t) (pre ++ (body' ++ post) ++ t) := by
      rw [h.bytes, List.append_assoc, List.append_assoc, List.append_assoc, List.append_assoc]
      exact (hbody.endsAlike.append_right h.form.ne_nil hbody.ne_nil _).append pre
    obtain ⟨v', hv, hsame⟩ := ha.transfer hends origin' p'
    obtain ⟨vs', hvs, hsames⟩ := h.replace hbody origin' (p'.afterAll a)
    rw [List.append_assoc]
    refine ⟨v' :: vs', hv.cons_forms hvs, ?_⟩
    rw [List.map_cons, List.map_cons, hsame, hsames]

theorem inside {bracket : Bracket} {inner : Bytes} {items : List Node}
    (h : FocusAt origin (p.afterAll bracket.opening) inner items (bracket.closing :: (s ++ t)) n
      pre body post)
    (hv : bracket.node? ⟨origin, some (.covering p (bracket.around inner))⟩ items = some v)
    (hs : Forms origin (p.afterAll (bracket.around inner)) s vs t) :
    FocusAt origin p (bracket.around inner ++ s) (v :: vs) t n (bracket.opening ++ pre) body
      (post ++ bracket.closing :: s) where
  bytes := by simp [Bracket.around, h.bytes]
  form := by
    rw [Position.afterAll_append, List.append_assoc]
    exact h.form
  replace := by
    intro body' hbody origin' p'
    rw [List.append_assoc] at hbody
    obtain ⟨items', hitems, hsame⟩ := h.replace hbody origin' (p'.afterAll bracket.opening)
    obtain ⟨v', hv', hsamev⟩ := Bracket.exists_node?
      ⟨origin', some (.covering p' (bracket.around (pre ++ (body' ++ post))))⟩ hv hsame
    obtain ⟨vs', hvs, hsames⟩ := hs.transfer (.refl t) origin'
      (p'.afterAll (bracket.around (pre ++ (body' ++ post))))
    have hbytes : bracket.opening ++ pre ++ (body' ++ (post ++ bracket.closing :: s)) =
        bracket.around (pre ++ (body' ++ post)) ++ s := by simp [Bracket.around]
    rw [hbytes]
    refine ⟨v' :: vs', .collection hitems hv' hvs, ?_⟩
    rw [List.map_cons, List.map_cons, hsamev, hsames]

end FocusAt

/-- Every node that occurs in one of the forms has its bytes among them. -/
theorem Forms.focus (h : Forms origin p s vs t) (hx : x ∈ vs) (hn : n.Occurs x) :
    ∃ pre body post, FocusAt origin p s vs t n pre body post := by
  induction h generalizing n x with
  | nil => cases hx
  | separator hg _ ih =>
    obtain ⟨pre, body, post, hfocus⟩ := ih hx hn
    exact ⟨_, _, _, hfocus.separator hg⟩
  | atom ha hs ih =>
    rcases List.mem_cons.1 hx with rfl | hx
    · obtain rfl := hn.eq_of_children_eq_nil (ha.isLeaf_make _).children
      exact ⟨_, _, _, .first (.atom ha) hs⟩
    · obtain ⟨pre, body, post, hfocus⟩ := ih hx hn
      exact ⟨_, _, _, hfocus.behind (.atom ha)⟩
  | collection hinner hv hs ihinner ih =>
    rcases List.mem_cons.1 hx with rfl | hx
    · obtain ⟨-, -, hchildren⟩ := Bracket.of_node? hv
      cases hn with
      | self => exact ⟨_, _, _, .first (.collection hinner hv) hs⟩
      | child hy hn =>
        obtain ⟨pre, body, post, hfocus⟩ := ihinner (hchildren ▸ hy) hn
        exact ⟨_, _, _, hfocus.inside hv hs⟩
    · obtain ⟨pre, body, post, hfocus⟩ := ih hx hn
      exact ⟨_, _, _, hfocus.behind (.collection hinner hv)⟩

/-- In a text that is read, every node has its bytes, and other bytes may take their place. -/
theorem Node.exists_focus {text : Bytes} (h : Node.read text origin = .ok v) (hn : n.Occurs v) :
    ∃ pre body post, text = pre ++ (body ++ post) ∧
      Form origin (Position.start.afterAll pre) body n post ∧
      ∀ body', StandsFor body' body n post → ∀ origin',
        ∃ v', Node.read (pre ++ (body' ++ post)) origin' = .ok v' ∧ v'.unmarked = v.unmarked := by
  obtain ⟨s, t, rfl, hforms, ht⟩ := Node.read_eq_ok_iff.1 h
  obtain ⟨pre, body, post, hfocus⟩ := hforms.focus List.mem_cons_self hn
  refine ⟨pre, body, post ++ t, by simp [hfocus.bytes], hfocus.form, fun body' hbody origin' => ?_⟩
  obtain ⟨vs', hvs, hsames⟩ := hfocus.replace hbody origin' .start
  obtain ⟨v', rfl, hsame⟩ := List.map_eq_singleton_iff.1 hsames
  exact ⟨v', Node.read_eq_ok_iff.2 ⟨_, t, by simp, hvs, ht⟩, hsame⟩

end Equate
