import Equate.Proofs.Node.Context
/-!
# Forms that cannot be read

`FormFault` says what is wrong with a form that the reader comes to, as `Form` says what is right
with one. It knows nothing of fuel and cursors. A form with a fault is an error at its first byte
(`FormFault.readForm_eq`), and where the reader fails on an atom, or to close a collection, there is
such a fault (`formFault_of_readAtom`, `formFault_of_closeCollection`).
-/

namespace Equate

variable {origin : Nat} {p : Position} {s t bs : Bytes} {vs : List Node} {b : UInt8}
  {bracket : Bracket} {c : Cursor} {fault : ReadFault} {e : ReadError}

/-! ## Faults -/

/-- Whether neither a separator nor a form starts with this byte. -/
structure IsUnexpected (b : UInt8) : Prop where
  separator : opensSeparator b = false
  symbol : startsSymbol b = false
  digit : Ascii.isDigit b = false
  punctuation : b ∉ [Ascii.leftParen, Ascii.leftBracket, Ascii.leftBrace, Ascii.hash, Ascii.quote,
    Ascii.colon]

/-- Whether no quote closes a string with these bytes behind its opening quote: a quote behind a
backslash is part of the string, and the last backslash may have nothing behind it. -/
inductive OpenString : Bytes → Prop
  | nil : OpenString []
  | backslash : OpenString [Ascii.backslash]
  | escape {b : UInt8} {s : Bytes} (h : OpenString s) : OpenString (Ascii.backslash :: b :: s)
  | plain {b : UInt8} {s : Bytes} (hquote : b ≠ Ascii.quote) (hbackslash : b ≠ Ascii.backslash)
      (h : OpenString s) : OpenString (b :: s)

/-- Whether the numeral denotes nothing that a node can hold. -/
def Numeral.isOutOfRange (n : Numeral) : Bool :=
  if n.isInteger then n.int64?.isNone else n.binary64?.isNone

/-- Whether `t`, with its first byte at `p`, starts with a form that has the fault. -/
inductive FormFault (origin : Nat) (p : Position) : Bytes → ReadFault → Prop
  | unexpectedByte {b : UInt8} {t : Bytes} (hb : IsUnexpected b) :
      FormFault origin p (b :: t) (.unexpectedByte b)
  | unterminatedString {t : Bytes} (ht : OpenString t) :
      FormFault origin p (Ascii.quote :: t) .unterminatedString
  | invalidNumber {n : Numeral} {t : Bytes} (hn : n.WellFormed) (ht : StopsAt n.goesOn t)
      (hrange : n.isOutOfRange = true) : FormFault origin p (n.text ++ t) (.invalidNumber n.text)
  | emptyKeyword {t : Bytes} (ht : delimits t = true) :
      FormFault origin p (Ascii.colon :: t) .emptyKeyword
  | unknownDispatch {t : Bytes} (ht : t.head? ≠ some Ascii.leftBrace) :
      FormFault origin p (Ascii.hash :: t) .unknownDispatch
  | unterminatedCollection {bracket : Bracket} {s t : Bytes} {vs : List Node}
      (hs : Forms origin (p.afterAll bracket.opening) s vs t) (ht : EndsText t) :
      FormFault origin p (bracket.opening ++ (s ++ t)) .unterminatedCollection
  | oddMap {inner t : Bytes} {vs : List Node}
      (hinner : Forms origin (p.afterAll Bracket.map.opening) inner vs (Bracket.map.closing :: t))
      (hodd : vs.length % 2 = 1) : FormFault origin p (Bracket.map.around inner ++ t) .oddMap

/-! ## First bytes -/

theorem IsUnexpected.bracket?_eq (h : IsUnexpected b) (bs : Bytes) :
    bracket? (b :: bs) = .ok none := by
  have hpunctuation := h.punctuation
  simp only [List.mem_cons, not_or] at hpunctuation
  simp [bracket?, hpunctuation]

theorem not_mem_of_bracket? (h : bracket? (b :: bs) = .ok none) :
    b ∉ [Ascii.leftParen, Ascii.leftBracket, Ascii.leftBrace, Ascii.hash] := by
  intro hb
  simp only [List.mem_cons, List.not_mem_nil, or_false] at hb
  rcases hb with rfl | rfl | rfl | rfl
  · cases h
  · cases h
  · cases h
  · rw [bracket?, if_neg (by decide), if_neg (by decide), if_neg (by decide), if_pos rfl] at h
    split at h <;> cases h

theorem bracket?_eq_error_iff :
    bracket? s = .error fault ↔
      fault = .unknownDispatch ∧ ∃ t, s = Ascii.hash :: t ∧ t.head? ≠ some Ascii.leftBrace := by
  cases s with
  | nil => simp [bracket?]
  | cons b bs =>
    constructor
    · intro h
      rw [bracket?] at h
      repeat' split at h
      all_goals cases h
      rename_i hhash hbrace
      exact ⟨rfl, bs, by rw [hhash], hbrace⟩
    · rintro ⟨rfl, t, heq, ht⟩
      cases heq
      rw [bracket?, if_neg (by decide), if_neg (by decide), if_neg (by decide), if_pos rfl,
        if_neg ht]

theorem delimits_iff_takeWhile_eq_nil : delimits t = true ↔ t.takeWhile continuesSymbol = [] := by
  cases t with
  | nil => exact ⟨fun _ => rfl, fun _ => rfl⟩
  | cons b bs =>
    rw [delimits_iff, stopsAt_cons]
    cases hb : continuesSymbol b <;> simp [hb]

namespace Numeral

theorem starts_of_isDigit (hb : Ascii.isDigit b = true) (bs : Bytes) : starts (b :: bs) = true := by
  cases bs <;> simp [starts, hb]

/-- A numeral starts with a digit or a sign, and a sign may start a symbol. -/
theorem not_starts_of_isUnexpected (h : IsUnexpected b) (bs : Bytes) :
    starts (b :: bs) = false := by
  have hsign : isSign b = false := by
    cases hsign : isSign b with
    | false => rfl
    | true => rw [← h.symbol, startsSymbol_of_isSign hsign]
  cases bs with
  | nil => exact h.digit
  | cons => simp [starts, h.digit, hsign]

theorem isOutOfRange_iff (n : Numeral) (int : Int64 → Node) (float : Binary64 → Node) :
    n.isOutOfRange = true ↔
      (if n.isInteger then n.int64?.map int else n.binary64?.map float) = none := by
  rw [isOutOfRange]
  split <;> simp

end Numeral

/-- The first byte of a form with a fault is no separator. -/
theorem FormFault.exists_cons (h : FormFault origin p t fault) :
    ∃ b bs, t = b :: bs ∧ opensSeparator b = false := by
  have opening (bracket : Bracket) (s : Bytes) :
      ∃ b bs, bracket.opening ++ s = b :: bs ∧ opensSeparator b = false := by
    obtain ⟨b, bs, heq, hb⟩ := startsForm_opening bracket s
    exact ⟨b, bs, heq, opensSeparator_of_startsForm hb⟩
  cases h with
  | unexpectedByte hb => exact ⟨_, _, rfl, hb.separator⟩
  | unterminatedString | emptyKeyword | unknownDispatch => exact ⟨_, _, rfl, by decide⟩
  | @invalidNumber n t hn =>
    obtain ⟨b, bs, heq, hb⟩ := hn.exists_startsAtom
    rw [heq]
    exact ⟨b, bs ++ t, rfl, opensSeparator_of_startsForm (startsForm_of_startsAtom hb)⟩
  | unterminatedCollection => exact opening _ _
  | oddMap => exact opening .map _

/-! ## Atoms with a fault -/

theorem readForm_of_isUnexpected (hb : IsUnexpected b) (bs : Bytes) (p : Position) (fuel : Nat) :
    readForm origin (fuel + 1) ⟨b :: bs, p⟩ = .error ⟨.unexpectedByte b, p⟩ := by
  have hstarts := Numeral.not_starts_of_isUnexpected hb bs
  have hpunctuation := hb.punctuation
  simp only [List.mem_cons, not_or] at hpunctuation
  rw [readForm_eq_readAtom hb.separator (hb.bracket?_eq bs)]
  simp [readAtom, hstarts, hb.symbol, hpunctuation, Cursor.error]

theorem readForm_of_emptyKeyword (ht : delimits t = true) (p : Position) (fuel : Nat) :
    readForm origin (fuel + 1) ⟨Ascii.colon :: t, p⟩ = .error ⟨.emptyKeyword, p⟩ := by
  have hname := delimits_iff_takeWhile_eq_nil.1 ht
  have hquote : Ascii.colon ≠ Ascii.quote := by decide
  rw [readForm_of_startsAtom (by decide)]
  simp [readAtom, hquote, Numeral.not_starts_colon, readKeyword, hname, Cursor.error]

theorem readForm_of_isOutOfRange {n : Numeral} (hn : n.WellFormed) (ht : StopsAt n.goesOn t)
    (h : n.isOutOfRange = true) (p : Position) (fuel : Nat) :
    readForm origin (fuel + 1) ⟨n.text ++ t, p⟩ = .error ⟨.invalidNumber n.text, p⟩ := by
  have hatom : readAtom origin ⟨n.text ++ t, p⟩ = .error ⟨.invalidNumber n.text, p⟩ := by
    rw [readAtom_of_starts (Numeral.starts_text_append hn t), readNumber]
    simp only [Numeral.scan_text_append hn ht, (n.isOutOfRange_iff _ _).1 h, Cursor.error]
  obtain ⟨b, bs, heq, hb⟩ := hn.exists_startsAtom
  rw [← hatom, heq, List.cons_append, readForm_of_startsAtom hb]

theorem stringBody_eq_none_iff : stringBody s = none ↔ OpenString s := by
  fun_induction stringBody s with
  | case1 => exact ⟨fun _ => .nil, fun _ => rfl⟩
  | case2 bs =>
    refine ⟨by simp, fun h => ?_⟩
    cases h with
    | plain hquote => exact absurd rfl hquote
  | case3 => exact ⟨fun _ => .backslash, fun _ => rfl⟩
  | case4 e es _ ih =>
    rw [Option.map_eq_none_iff, ih]
    refine ⟨.escape, fun h => ?_⟩
    cases h with
    | escape h => exact h
    | plain _ hbackslash => exact absurd rfl hbackslash
  | case5 b bs hquote hbackslash ih =>
    rw [Option.map_eq_none_iff, ih]
    refine ⟨.plain hquote hbackslash, fun h => ?_⟩
    cases h with
    | backslash | escape => exact absurd rfl hbackslash
    | plain _ _ h => exact h

theorem formFault_of_readString (hrest : c.rest = Ascii.quote :: bs)
    (h : readString origin c = .error e) :
    e.position = c.position ∧ FormFault origin c.position c.rest e.fault := by
  rw [readString, hrest, List.drop_succ_cons, List.drop_zero] at h
  split at h
  · cases h
  · rename_i hbody
    cases h
    rw [hrest]
    exact ⟨rfl, .unterminatedString (stringBody_eq_none_iff.1 hbody)⟩

theorem formFault_of_readNumber (hstarts : Numeral.starts c.rest = true)
    (h : readNumber origin c = .error e) :
    e.position = c.position ∧ FormFault origin c.position c.rest e.fault := by
  obtain ⟨t, heq, hwell, hstops⟩ := Numeral.exists_scan hstarts
  rw [readNumber] at h
  split at h
  · cases h
  · rename_i hnode
    cases h
    have hfault : FormFault origin c.position ((Numeral.scan c.rest).text ++ t) _ :=
      .invalidNumber hwell hstops ((Numeral.isOutOfRange_iff _ _ _).2 hnode)
    rw [← heq] at hfault
    exact ⟨rfl, hfault⟩

theorem formFault_of_readKeyword (hrest : c.rest = Ascii.colon :: bs)
    (h : readKeyword origin c = .error e) :
    e.position = c.position ∧ FormFault origin c.position c.rest e.fault := by
  rw [readKeyword, hrest, List.drop_succ_cons, List.drop_zero] at h
  split at h
  · rename_i hname
    cases h
    rw [hrest]
    exact ⟨rfl, .emptyKeyword (delimits_iff_takeWhile_eq_nil.2 (List.isEmpty_iff.1 hname))⟩
  · cases h

/-- An atom that cannot be read is a form with a fault, reported at its first byte. -/
theorem formFault_of_readAtom (hrest : c.rest = b :: bs) (hb : opensSeparator b = false)
    (hbracket : bracket? (b :: bs) = .ok none) (h : readAtom origin c = .error e) :
    e.position = c.position ∧ FormFault origin c.position c.rest e.fault := by
  rw [readAtom, hrest] at h
  dsimp only at h
  split at h
  · rename_i hquote
    exact formFault_of_readString (hquote ▸ hrest) h
  split at h
  · rename_i hstarts
    exact formFault_of_readNumber (hrest ▸ hstarts) h
  split at h
  · rename_i hcolon
    exact formFault_of_readKeyword (hcolon ▸ hrest) h
  split at h
  · cases h
  · rename_i hquote hstarts hcolon hsymbol
    cases h
    rw [hrest]
    have hdigit : Ascii.isDigit b = false := by
      cases hdigit : Ascii.isDigit b with
      | false => rfl
      | true => exact absurd (Numeral.starts_of_isDigit hdigit bs) hstarts
    have hopening := not_mem_of_bracket? hbracket
    exact ⟨rfl, .unexpectedByte ⟨hb, by simpa using hsymbol, hdigit, by
      simpa [hquote, hcolon] using hopening⟩⟩

/-! ## Collections with a fault -/

theorem pairUp_eq_none_iff (xs : List Node) : pairUp xs = none ↔ xs.length % 2 = 1 := by
  fun_induction pairUp xs with
  | case1 => simp
  | case2 => simp
  | case3 k v rest ih =>
    rw [Option.map_eq_none_iff, ih, List.length_cons, List.length_cons]
    omega

theorem Bracket.of_node?_eq_none {mark : Mark} (h : bracket.node? mark vs = none) :
    bracket = .map ∧ vs.length % 2 = 1 := by
  cases bracket with
  | list | vector | set => cases h
  | map => exact ⟨rfl, (pairUp_eq_none_iff vs).1 (Option.map_eq_none_iff.1 h)⟩

/-- At the end of the text the items are over. -/
theorem readItems_of_end (h : c.skipSeparators.rest = []) (closing : UInt8) (fuel : Nat) :
    readItems origin (fuel + 1) closing c = .ok ([], c.skipSeparators) := by
  rw [readItems]
  simp [h]

theorem readForm_of_unterminated (hs : Forms origin (p.afterAll bracket.opening) s vs t)
    (ht : EndsText t) (fuel : Nat) (hfuel : 2 * s.length + 1 < fuel) :
    readForm origin fuel ⟨bracket.opening ++ (s ++ t), p⟩ =
      .error ⟨.unterminatedCollection, p⟩ := by
  have hle := hs.length_le
  have hend : (Cursor.mk t ((p.afterAll bracket.opening).afterAll s)).skipSeparators.rest = [] :=
    Cursor.skipSeparators_rest_eq_nil_iff.2 ⟨[], t, rfl, .nil, ht⟩
  obtain ⟨fuel, rfl⟩ : ∃ n, fuel = n + 1 + vs.length + 1 := ⟨fuel - vs.length - 2, by omega⟩
  rw [readForm_opening, hs.readItems_append _ (by omega), readItems_of_end hend]
  simp [Except.map, Except.bind, closeCollection, hend, Cursor.error]

theorem readForm_of_oddMap {inner : Bytes}
    (hinner : Forms origin (p.afterAll Bracket.map.opening) inner vs (Bracket.map.closing :: t))
    (hodd : vs.length % 2 = 1) (fuel : Nat) (hfuel : 2 * inner.length + 1 < fuel) :
    readForm origin fuel ⟨Bracket.map.around inner ++ t, p⟩ = .error ⟨.oddMap, p⟩ := by
  have hsplit : Bracket.map.around inner ++ t =
      Bracket.map.opening ++ (inner ++ Bracket.map.closing :: t) := by simp [Bracket.around]
  obtain ⟨fuel, rfl⟩ : ∃ n, fuel = n + 1 := ⟨fuel - 1, by omega⟩
  rw [hsplit, readForm_opening, readItems_of_forms hinner fuel (by omega)]
  simp [Except.bind, closeCollection, Bracket.node?, (pairUp_eq_none_iff vs).2 hodd, Cursor.error]

/-- A form with a fault is an error at its first byte. -/
theorem FormFault.readForm_eq (h : FormFault origin p t fault) (fuel : Nat)
    (hfuel : 2 * t.length < fuel) : readForm origin fuel ⟨t, p⟩ = .error ⟨fault, p⟩ := by
  obtain ⟨fuel, rfl⟩ : ∃ n, fuel = n + 1 := ⟨fuel - 1, by omega⟩
  cases h with
  | unexpectedByte hb => exact readForm_of_isUnexpected hb _ p fuel
  | unterminatedString ht =>
    rw [readForm_of_startsAtom (by decide)]
    simp [readAtom, readString, stringBody_eq_none_iff.2 ht, Cursor.error]
  | invalidNumber hn ht hrange => exact readForm_of_isOutOfRange hn ht hrange p fuel
  | emptyKeyword ht => exact readForm_of_emptyKeyword ht p fuel
  | @unknownDispatch t ht =>
    rw [readForm, Cursor.skipSeparators_of_opensSeparator (by decide)]
    simp only [bracket?_eq_error_iff.2 ⟨rfl, t, rfl, ht⟩, Cursor.error]
  | @unterminatedCollection bracket s t vs hs ht =>
    have hopening := bracket.length_opening_pos
    rw [List.length_append, List.length_append] at hfuel
    exact readForm_of_unterminated hs ht (fuel + 1) (by omega)
  | @oddMap inner t vs hinner hodd =>
    simp only [Bracket.around, List.length_append, List.length_singleton] at hfuel
    exact readForm_of_oddMap hinner hodd (fuel + 1) (by omega)

/-- Items that end with the text are forms, and perhaps an open comment. -/
theorem formsUpTo_of_readItems_end {closing : UInt8} {c' : Cursor} (fuel : Nat)
    (h : readItems origin fuel closing c = .ok (vs, c')) (hend : c'.rest = []) :
    ∃ c'', FormsUpTo origin c vs c'' ∧ EndsText c''.rest := by
  induction fuel generalizing c vs with
  | zero =>
    rw [readItems.eq_def] at h
    cases h
  | succ fuel ih =>
    rcases readItems_cases h with ⟨rfl, rfl, -⟩ | ⟨x, xs, between, hx, hxs, rfl⟩
    · obtain ⟨g, t, hrest, hg, ht⟩ := Cursor.skipSeparators_rest_eq_nil_iff.1 hend
      exact ⟨⟨t, c.position.afterAll g⟩, .of_separator hg ⟨hrest, rfl⟩, ht⟩
    · have hform := (formAt_of_readForm fuel).1 hx
      obtain ⟨g, hg, hskip⟩ := Cursor.separator_of_skipSeparators hform.rest_ne_nil
      obtain ⟨c'', hforms, ht⟩ := ih hxs
      exact ⟨c'', hform.cons hg hskip hforms, ht⟩

/-- A collection that cannot be closed is a form with a fault, reported at its bracket. -/
theorem formFault_of_closeCollection {fuel : Nat} {behind : Cursor}
    (hopening : c.rest = bracket.opening ++ bs)
    (hitems : readItems origin fuel bracket.closing (c.skip bracket.opening.length) =
      .ok (vs, behind))
    (h : closeCollection origin c bracket vs behind = .error e) :
    e.position = c.position ∧ FormFault origin c.position c.rest e.fault := by
  have hopen : c.Passes bracket.opening (c.skip bracket.opening.length) := .skip hopening
  rw [closeCollection] at h
  split at h
  · rename_i hend
    cases h
    obtain ⟨c'', ⟨s, hs, hforms⟩, ht⟩ :=
      formsUpTo_of_readItems_end fuel hitems (by simpa using hend)
    rw [hopen.position] at hforms
    rw [hopen.rest, hs.rest]
    exact ⟨rfl, .unterminatedCollection hforms ht⟩
  · rename_i hend
    split at h
    · cases h
    · rename_i hnode
      cases h
      obtain ⟨rfl, hodd⟩ := Bracket.of_node?_eq_none hnode
      obtain ⟨inner, t, hinner, hclosing, hforms⟩ :=
        (formAt_of_readForm fuel).2 hitems (by simpa using hend)
      rw [hopen.position, hclosing] at hforms
      have hrest : c.rest = Bracket.map.around inner ++ t := by
        rw [hopen.rest, hinner.rest, hclosing]
        simp [Bracket.around]
      rw [hrest]
      exact ⟨rfl, .oddMap hforms hodd⟩

end Equate
