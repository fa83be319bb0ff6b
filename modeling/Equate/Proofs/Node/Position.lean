import Mathlib.Data.Prod.Lex
import Mathlib.Data.List.Basic
import Equate.Node.Reader
/-!
# Places and spans

Places are compared in reading order, first by lines and then by columns. Every byte moves the
place on (`Position.lt_afterAll`), so a place tells how much of a text stands in front of it
(`Position.eq_of_afterAll_eq`), and a span tells which bytes of a text it covers: `Span.cut` takes
them by their places alone, and `Span.cut_covering` says that it takes the right ones.
-/

namespace Equate

namespace Position

variable {p : Position} {s t : Bytes}

/-- Reading order: an earlier line, or an earlier column of the same line. -/
instance : LinearOrder Position :=
  LinearOrder.lift' (fun p => toLex (p.line, p.column)) fun p q h => by
    cases p
    cases q
    simpa using h

theorem lt_iff {p q : Position} :
    p < q ↔ p.line < q.line ∨ p.line = q.line ∧ p.column < q.column :=
  Prod.Lex.toLex_lt_toLex

theorem lt_after (p : Position) (b : UInt8) : p < p.after b := by
  rw [lt_iff, after]
  split
  · exact .inl (Nat.lt_succ_self _)
  · exact .inr ⟨rfl, Nat.lt_succ_self _⟩

@[simp] theorem afterAll_nil (p : Position) : p.afterAll [] = p := rfl

@[simp] theorem afterAll_cons (p : Position) (b : UInt8) (s : Bytes) :
    p.afterAll (b :: s) = (p.after b).afterAll s := rfl

@[simp] theorem afterAll_append (p : Position) (s t : Bytes) :
    p.afterAll (s ++ t) = (p.afterAll s).afterAll t :=
  List.foldl_append

theorem le_afterAll (p : Position) (s : Bytes) : p ≤ p.afterAll s := by
  induction s generalizing p with
  | nil => exact le_rfl
  | cons b s ih => exact (lt_after p b).le.trans (ih _)

theorem lt_afterAll (hs : s ≠ []) (p : Position) : p < p.afterAll s := by
  obtain ⟨b, s, rfl⟩ := List.exists_cons_of_ne_nil hs
  exact (lt_after p b).trans_le (le_afterAll _ s)

theorem eq_nil_of_afterAll_eq (h : p.afterAll s = p) : s = [] := by
  by_contra hs
  exact (lt_afterAll hs p).ne h.symm

/-- In one text, a place belongs to one offset only. -/
theorem eq_of_afterAll_eq {s' t' : Bytes} (h : s ++ t = s' ++ t')
    (hp : p.afterAll s = p.afterAll s') : s = s' ∧ t = t' := by
  rcases List.append_eq_append_iff.1 h with ⟨u, rfl, rfl⟩ | ⟨u, rfl, rfl⟩
  · rw [afterAll_append] at hp
    simp [eq_nil_of_afterAll_eq hp.symm]
  · rw [afterAll_append] at hp
    simp [eq_nil_of_afterAll_eq hp]

end Position

/-! ## Spans -/

namespace Span

variable {p : Position} {s t : Bytes}

/-- The span of the bytes `s` if the first of them is at `p`. -/
def covering (p : Position) (s : Bytes) : Span := ⟨p, p.afterAll s.dropLast⟩

theorem first_le_last_covering (p : Position) (s : Bytes) :
    (covering p s).first ≤ (covering p s).last :=
  Position.le_afterAll p s.dropLast

theorem last_covering_lt (hs : s ≠ []) (p : Position) : (covering p s).last < p.afterAll s := by
  have happend : p.afterAll s = (p.afterAll s.dropLast).afterAll [s.getLast hs] := by
    rw [← Position.afterAll_append, List.dropLast_append_getLast]
  rw [happend]
  exact Position.lt_afterAll (List.cons_ne_nil _ _) _

/-- Of a text whose first byte is at `p`, the bytes that are not before the span and not behind
it. -/
def cutFrom (span : Span) : Position → Bytes → Bytes
  | _, [] => []
  | p, b :: bs =>
    if span.first ≤ p ∧ p ≤ span.last then b :: span.cutFrom (p.after b) bs
    else span.cutFrom (p.after b) bs

/-- The bytes of a text from the first to the last place of the span, both included. -/
def cut (span : Span) (text : Bytes) : Bytes := span.cutFrom .start text

theorem cutFrom_append (span : Span) (p : Position) (s t : Bytes) :
    span.cutFrom p (s ++ t) = span.cutFrom p s ++ span.cutFrom (p.afterAll s) t := by
  induction s generalizing p with
  | nil => rfl
  | cons b s ih =>
    simp only [List.cons_append, cutFrom, ih, Position.afterAll_cons]
    split <;> rfl

theorem cutFrom_of_le_first {span : Span} (h : p.afterAll s ≤ span.first) :
    span.cutFrom p s = [] := by
  induction s generalizing p with
  | nil => rfl
  | cons b s ih =>
    have hlt : p < span.first := (Position.lt_afterAll (List.cons_ne_nil b s) p).trans_le h
    rw [cutFrom, if_neg fun hin => hlt.not_ge hin.1]
    exact ih h

theorem cutFrom_of_last_lt {span : Span} (h : span.last < p) : span.cutFrom p s = [] := by
  induction s generalizing p with
  | nil => rfl
  | cons b s ih =>
    rw [cutFrom, if_neg fun hin => h.not_ge hin.2]
    exact ih (h.trans (Position.lt_after p b))

theorem cutFrom_of_within {span : Span} (hfirst : span.first ≤ p)
    (hlast : (covering p s).last ≤ span.last) : span.cutFrom p s = s := by
  induction s generalizing p with
  | nil => rfl
  | cons b s ih =>
    rw [cutFrom, if_pos ⟨hfirst, (Position.le_afterAll p _).trans hlast⟩]
    cases s with
    | nil => rfl
    | cons c s => rw [ih (hfirst.trans (Position.lt_after p b).le) hlast]

/-- A span cuts out the bytes it was made for. -/
theorem cut_covering (pre : Bytes) {body : Bytes} (hbody : body ≠ []) (post : Bytes) :
    (covering (Position.start.afterAll pre) body).cut (pre ++ (body ++ post)) = body := by
  have hbefore : (covering (Position.start.afterAll pre) body).cutFrom .start pre = [] :=
    cutFrom_of_le_first le_rfl
  have hwithin : (covering (Position.start.afterAll pre) body).cutFrom (Position.start.afterAll pre)
      body = body := cutFrom_of_within le_rfl le_rfl
  have hbehind := cutFrom_of_last_lt (s := post)
    (last_covering_lt hbody (Position.start.afterAll pre))
  rw [cut, cutFrom_append, cutFrom_append, hbefore, hwithin, hbehind, List.append_nil,
    List.nil_append]

end Span

end Equate
