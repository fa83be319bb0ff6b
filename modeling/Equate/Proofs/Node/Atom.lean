import Equate.Proofs.Node.Children
import Equate.Proofs.Node.Numeral
import Equate.Proofs.Node.Separator
import Equate.Proofs.Node.Unmarked
/-!
# Atoms in front of a text

An atom is read by its own bytes and the first byte behind them: a string by its closing quote, any
other atom as far as it goes on. So what follows an atom may be changed as long as its first byte
stays or no word goes on there (`Atom.before`). `readAtom_of_atom` and `atomAt_of_readAtom` say
that these are the atoms of the reader.
-/

namespace Equate

variable {origin : Nat} {s t t' : Bytes} {make : Mark → Node}

/-! ## What may follow -/

/-- Whether every atom that is over in front of `t` is over in front of `t'`: both start with the
same byte, or no word goes on with `t'`. -/
def EndsAlike (t t' : Bytes) : Prop := t'.head? = t.head? ∨ delimits t' = true

theorem EndsAlike.refl (t : Bytes) : EndsAlike t t := .inl rfl

theorem EndsAlike.nil (t : Bytes) : EndsAlike t [] := .inr rfl

theorem EndsAlike.cons (b : UInt8) (t t' : Bytes) : EndsAlike (b :: t) (b :: t') := .inl rfl

theorem EndsAlike.append (h : EndsAlike t t') (s : Bytes) : EndsAlike (s ++ t) (s ++ t') := by
  cases s with
  | nil => exact h
  | cons b s => exact .inl rfl

theorem StopsAt.before {p : UInt8 → Bool} (hp : ∀ b, p b = true → continuesSymbol b = true)
    (ht : StopsAt p t) (h : EndsAlike t t') : StopsAt p t' := by
  rcases h with h | h
  · rwa [StopsAt, h]
  · exact (delimits_iff.1 h).mono hp

/-! ## Strings -/

/-- The contents of a string are told by the bytes up to its closing quote. -/
theorem stringBody_take {n : Nat} {text : Bytes} (h : stringBody s = some (text, n)) :
    n ≤ s.length ∧ ∀ t, stringBody (s.take n ++ t) = some (text, n) := by
  fun_induction stringBody s generalizing n text with
  | case1 => cases h
  | case2 bs =>
    cases h
    exact ⟨Nat.le_add_left 1 _, stringBody_quote⟩
  | case3 => cases h
  | case4 e es _ ih =>
    obtain ⟨⟨text, n⟩, hbody, heq⟩ := Option.map_eq_some_iff.1 h
    cases heq
    obtain ⟨hlength, hbody⟩ := ih hbody
    refine ⟨by simpa using hlength, fun t => ?_⟩
    rw [List.take_succ_cons, List.take_succ_cons, List.cons_append, List.cons_append,
      stringBody_backslash, hbody, Option.map_some]
  | case5 b bs hquote hbackslash ih =>
    obtain ⟨⟨text, n⟩, hbody, heq⟩ := Option.map_eq_some_iff.1 h
    cases heq
    obtain ⟨hlength, hbody⟩ := ih hbody
    refine ⟨by simpa using hlength, fun t => ?_⟩
    rw [List.take_succ_cons, List.cons_append, stringBody_plain hquote hbackslash, hbody,
      Option.map_some]

/-! ## Atoms -/

/-- Whether a name is read as a keyword behind a colon. -/
structure IsKeywordName (s : Bytes) : Prop where
  nonempty : s ≠ []
  continues : ∀ b ∈ s, continuesSymbol b = true

/-- Whether the bytes `s` in front of `t` are an atom. With its mark, `make` gives the node. -/
inductive Atom : Bytes → (Mark → Node) → Bytes → Prop
  | str {body text t : Bytes} (h : stringBody body = some (text, body.length)) :
      Atom (Ascii.quote :: body) (fun m => .str m text) t
  | int {n : Numeral} {i : Int64} {t : Bytes} (hn : n.WellFormed) (ht : StopsAt n.goesOn t)
      (hinteger : n.isInteger = true) (hi : n.int64? = some i) : Atom n.text (fun m => .int m i) t
  | float {n : Numeral} {x : Binary64} {t : Bytes} (hn : n.WellFormed) (ht : StopsAt n.goesOn t)
      (hinteger : n.isInteger = false) (hx : n.binary64? = some x) :
      Atom n.text (fun m => .float m x) t
  | keyword {k t : Bytes} (hk : IsKeywordName k) (ht : delimits t = true) :
      Atom (Ascii.colon :: k) (fun m => .keyword m k) t
  | word {s t : Bytes} (hstarts : ∃ b bs, s = b :: bs ∧ startsSymbol b = true)
      (hcontinues : ∀ b ∈ s, continuesSymbol b = true) (hnumeral : Numeral.starts s = false)
      (ht : delimits t = true) : Atom s (fun m => wordNode m s) t

theorem Numeral.WellFormed.exists_startsAtom {n : Numeral} (hn : n.WellFormed) :
    ∃ b bs, n.text = b :: bs ∧ startsAtom b = true := by
  obtain ⟨d, ds, hd⟩ := List.exists_cons_of_ne_nil hn.whole_ne_nil
  rw [text_eq]
  rcases hn.sign with hsign | ⟨b, hsign, hb⟩
  · rw [hsign, hd]
    exact ⟨d, _, rfl, startsAtom_of_isDigit d (hn.whole d (by simp [hd]))⟩
  · rw [hsign]
    exact ⟨b, _, rfl, startsAtom_of_startsSymbol (startsSymbol_of_isSign hb)⟩

namespace Atom

theorem before (h : Atom s make t) (ht : EndsAlike t t') : Atom s make t' := by
  have hword (hdelimits : delimits t = true) : delimits t' = true :=
    delimits_iff.2 ((delimits_iff.1 hdelimits).before (fun _ => id) ht)
  cases h with
  | str h => exact .str h
  | int hn hstops hinteger hi =>
    exact .int hn (hstops.before (fun _ => Numeral.continuesSymbol_of_goesOn) ht) hinteger hi
  | float hn hstops hinteger hx =>
    exact .float hn (hstops.before (fun _ => Numeral.continuesSymbol_of_goesOn) ht) hinteger hx
  | keyword hk hdelimits => exact .keyword hk (hword hdelimits)
  | word hstarts hcontinues hnumeral hdelimits =>
    exact .word hstarts hcontinues hnumeral (hword hdelimits)

theorem exists_startsAtom (h : Atom s make t) : ∃ b bs, s = b :: bs ∧ startsAtom b = true := by
  cases h with
  | str => exact ⟨_, _, rfl, by decide⟩
  | int hn => exact hn.exists_startsAtom
  | float hn => exact hn.exists_startsAtom
  | keyword => exact ⟨_, _, rfl, by decide⟩
  | word hstarts =>
    obtain ⟨b, bs, rfl, hb⟩ := hstarts
    exact ⟨b, bs, rfl, startsAtom_of_startsSymbol hb⟩

theorem exists_startsForm (h : Atom s make t) : ∃ b bs, s = b :: bs ∧ startsForm b = true := by
  obtain ⟨b, bs, rfl, hb⟩ := h.exists_startsAtom
  exact ⟨b, bs, rfl, startsForm_of_startsAtom hb⟩

theorem ne_nil (h : Atom s make t) : s ≠ [] := by
  obtain ⟨b, bs, rfl, -⟩ := h.exists_startsAtom
  exact List.cons_ne_nil b bs

theorem isLeaf_make (h : Atom s make t) (m : Mark) : (make m).IsLeaf m := by
  cases h with
  | word => exact Node.isLeaf_wordNode m s
  | _ => exact ⟨rfl, rfl, rfl⟩

theorem unmarked_make (h : Atom s make t) (m m' : Mark) :
    (make m).unmarked = (make m').unmarked := by
  cases h with
  | word =>
    unfold wordNode
    repeat' split
    all_goals rfl
  | _ => rfl

end Atom

/-! ## What the reader reads -/

theorem Cursor.mark_append (origin : Nat) (s t : Bytes) (p : Position) :
    (Cursor.mk (s ++ t) p).mark origin s.length = ⟨origin, some (.covering p s)⟩ := by
  rw [mark, List.take_append_of_le_length (Nat.sub_le _ 1), ← List.dropLast_eq_take, Span.covering]

theorem Cursor.skip_append (s t : Bytes) (p : Position) :
    (Cursor.mk (s ++ t) p).skip s.length = ⟨t, p.afterAll s⟩ := by
  simp [skip]

theorem startsSymbol_ne {b c : UInt8} (hb : startsSymbol b = true) (hc : startsSymbol c = false) :
    b ≠ c := by
  rintro rfl
  rw [hb] at hc
  cases hc

theorem readAtom_of_starts (h : Numeral.starts s = true) (p : Position) :
    readAtom origin ⟨s, p⟩ = readNumber origin ⟨s, p⟩ := by
  cases s with
  | nil => cases h
  | cons b bs =>
    have hquote : b ≠ Ascii.quote := by
      rintro rfl
      rw [Numeral.not_starts_quote] at h
      cases h
    simp only [readAtom, hquote, h, if_true, if_false]

theorem readNumber_append {n : Numeral} (hn : n.WellFormed) (ht : StopsAt n.goesOn t)
    {v : Node} (p : Position)
    (hv : (if n.isInteger then n.int64?.map (.int ⟨origin, some (.covering p n.text)⟩)
      else n.binary64?.map (.float ⟨origin, some (.covering p n.text)⟩)) = some v) :
    readNumber origin ⟨n.text ++ t, p⟩ = .ok (v, ⟨t, p.afterAll n.text⟩) := by
  simp only [readNumber, Numeral.scan_text_append hn ht, Cursor.mark_append, hv,
    Cursor.skip_append]

/-- An atom is read as a whole, and the reader stops behind it. -/
theorem readAtom_of_atom (h : Atom s make t) (p : Position) :
    readAtom origin ⟨s ++ t, p⟩ =
      .ok (make ⟨origin, some (.covering p s)⟩, ⟨t, p.afterAll s⟩) := by
  cases h with
  | @str body text t h =>
    obtain ⟨-, hbody⟩ := stringBody_take h
    have hmark := Cursor.mark_append origin (Ascii.quote :: body) t p
    have hskip := Cursor.skip_append (Ascii.quote :: body) t p
    rw [List.take_length] at hbody
    rw [List.length_cons, List.cons_append] at hmark hskip
    rw [List.cons_append, readAtom]
    simp only [if_true, readString, List.drop_succ_cons, List.drop_zero, hbody, hmark, hskip]
  | int hn ht hinteger hi =>
    rw [readAtom_of_starts (Numeral.starts_text_append hn t)]
    exact readNumber_append hn ht p (by rw [if_pos hinteger, hi, Option.map_some])
  | float hn ht hinteger hx =>
    rw [readAtom_of_starts (Numeral.starts_text_append hn t)]
    exact readNumber_append hn ht p (by simp [hinteger, hx])
  | @keyword k t hk ht =>
    obtain ⟨hname, -⟩ := takeWhile_append_of_stopsAt hk.continues (delimits_iff.1 ht)
    have hmark := Cursor.mark_append origin (Ascii.colon :: k) t p
    have hskip := Cursor.skip_append (Ascii.colon :: k) t p
    have hne : k.isEmpty = false := by simpa using hk.nonempty
    rw [List.length_cons, List.cons_append] at hmark hskip
    rw [List.cons_append, readAtom]
    simp only [Numeral.not_starts_colon, show Ascii.colon ≠ Ascii.quote by decide, if_true,
      if_false, Bool.false_eq_true, readKeyword, List.drop_succ_cons, List.drop_zero, hname, hne,
      hmark, hskip]
  | word hstarts hcontinues hnumeral ht =>
    obtain ⟨hword, -⟩ := takeWhile_append_of_stopsAt hcontinues (delimits_iff.1 ht)
    obtain ⟨b, bs, rfl, hb⟩ := hstarts
    rw [← Numeral.starts_append_of_delimits (List.cons_ne_nil b bs) ht] at hnumeral
    have hreadWord : readAtom origin ⟨b :: bs ++ t, p⟩ = readWord origin ⟨b :: bs ++ t, p⟩ := by
      rw [List.cons_append] at hnumeral ⊢
      simp only [readAtom, hnumeral, startsSymbol_ne hb (c := Ascii.quote) (by decide),
        startsSymbol_ne hb (c := Ascii.colon) (by decide), hb, if_true, if_false,
        Bool.false_eq_true]
    rw [hreadWord, readWord]
    simp only [hword, Cursor.mark_append, Cursor.skip_append]

/-- Whether `v` is an atom at the cursor `c`, with its mark, and `c'` is behind it. -/
def AtomAt (origin : Nat) (c : Cursor) (v : Node) (c' : Cursor) : Prop :=
  ∃ s make, Atom s make c'.rest ∧ c.Passes s c' ∧ v = make ⟨origin, some (.covering c.position s)⟩

theorem Atom.at_cursor {c : Cursor} (hatom : Atom s make t) (h : c.rest = s ++ t) {n : Nat}
    (hn : n = s.length) : AtomAt origin c (make (c.mark origin n)) (c.skip n) := by
  obtain ⟨rest, p⟩ := c
  subst hn h
  rw [Cursor.mark_append, Cursor.skip_append]
  exact ⟨s, make, hatom, Cursor.passes_mk s t p, rfl⟩

section

variable {c c' : Cursor} {v : Node} {b : UInt8} {bs : Bytes}

theorem atomAt_of_readString (hrest : c.rest = Ascii.quote :: bs)
    (h : readString origin c = .ok (v, c')) : AtomAt origin c v c' := by
  rw [readString, hrest, List.drop_succ_cons, List.drop_zero] at h
  split at h
  · rename_i text n hbody
    cases h
    obtain ⟨hlength, hbodies⟩ := stringBody_take hbody
    have hn : (bs.take n).length = n := List.length_take_of_le hlength
    have hself : stringBody (bs.take n) = some (text, (bs.take n).length) := by
      rw [hn, ← hbodies [], List.append_nil]
    refine (Atom.str hself).at_cursor (t := bs.drop n) ?_ (by rw [List.length_cons, hn])
    rw [hrest, List.cons_append, List.take_append_drop]
  · cases h

theorem atomAt_of_readNumber (hstarts : Numeral.starts c.rest = true)
    (h : readNumber origin c = .ok (v, c')) : AtomAt origin c v c' := by
  obtain ⟨t, heq, hwell, hstops⟩ := Numeral.exists_scan hstarts
  rw [readNumber] at h
  split at h
  · rename_i node hnode
    cases h
    split at hnode
    · rename_i hinteger
      obtain ⟨i, hi, rfl⟩ := Option.map_eq_some_iff.1 hnode
      exact (Atom.int hwell hstops hinteger hi).at_cursor heq rfl
    · rename_i hinteger
      obtain ⟨x, hx, rfl⟩ := Option.map_eq_some_iff.1 hnode
      exact (Atom.float hwell hstops (by simpa using hinteger) hx).at_cursor heq rfl
  · cases h

theorem atomAt_of_readKeyword (hrest : c.rest = Ascii.colon :: bs)
    (h : readKeyword origin c = .ok (v, c')) : AtomAt origin c v c' := by
  rw [readKeyword, hrest, List.drop_succ_cons, List.drop_zero] at h
  split at h
  · cases h
  · rename_i hne
    cases h
    have hname : IsKeywordName (bs.takeWhile continuesSymbol) :=
      ⟨by simpa using hne, fun b hb => List.mem_takeWhile_imp hb⟩
    refine (Atom.keyword hname (delimits_iff.2 (stopsAt_dropWhile _ bs))).at_cursor ?_
      (List.length_cons ..).symm
    rw [hrest, List.cons_append, List.takeWhile_append_dropWhile]

theorem atomAt_of_readWord (hrest : c.rest = b :: bs) (hb : startsSymbol b = true)
    (hnumeral : Numeral.starts c.rest = false) (h : readWord origin c = .ok (v, c')) :
    AtomAt origin c v c' := by
  rw [readWord] at h
  cases h
  refine (Atom.word ?_ (fun b hb => List.mem_takeWhile_imp hb) ?_
    (delimits_iff.2 (stopsAt_dropWhile _ c.rest))).at_cursor
      List.takeWhile_append_dropWhile.symm rfl
  · rw [hrest, List.takeWhile_cons_of_pos (continuesSymbol_of_startsSymbol hb)]
    exact ⟨b, _, rfl, hb⟩
  · cases hword : Numeral.starts (c.rest.takeWhile continuesSymbol) with
    | false => rfl
    | true => rw [← hnumeral, Numeral.starts_of_starts_takeWhile hword]

/-- What is read without parts is an atom. -/
theorem atomAt_of_readAtom (h : readAtom origin c = .ok (v, c')) : AtomAt origin c v c' := by
  rw [readAtom] at h
  split at h
  · cases h
  rename_i b bs hrest
  split at h
  · rename_i hquote
    exact atomAt_of_readString (hquote ▸ hrest) h
  split at h
  · rename_i hstarts
    exact atomAt_of_readNumber hstarts h
  rename_i hnumeral
  split at h
  · rename_i hcolon
    exact atomAt_of_readKeyword (hcolon ▸ hrest) h
  split at h
  · rename_i hb
    exact atomAt_of_readWord hrest hb (by simpa using hnumeral) h
  · cases h

end

end Equate
