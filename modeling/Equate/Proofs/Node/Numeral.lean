import Mathlib.Data.List.TakeWhile
import Equate.Proofs.Node.Lexeme
/-!
# Numerals in front of a text

The scanner takes the longest numeral at the front of a text. What it takes is decided by the bytes
of the numeral and by the first byte behind them, which must not go on with it (`Numeral.goesOn`):
`Numeral.scan_text_append` and `Numeral.exists_scan` are the two directions.
-/

namespace Equate

namespace Numeral

/-! ## Parts of a numeral -/

/-- A sign, or nothing. -/
def IsSignText (s : Bytes) : Prop := s = [] ∨ ∃ b, s = [b] ∧ isSign b = true

/-- A point and digits, or nothing. -/
def fractionText (digits? : Option Bytes) : Bytes :=
  match digits? with
  | some digits => Ascii.dot :: digits
  | none => []

/-- A letter, a sign and digits, or nothing. -/
def exponentText (e? : Option NumeralExponent) : Bytes :=
  match e? with
  | some e => e.letter :: (e.sign ++ e.digits)
  | none => []

theorem text_eq (n : Numeral) :
    n.text = n.sign ++ (n.whole ++ (fractionText n.fraction? ++ exponentText n.exponent?)) := by
  simp only [text, List.append_assoc]
  rfl

/-- Whether the byte can start the exponent of a numeral. -/
def isExponentLetter (b : UInt8) : Bool := b == 0x65 || b == 0x45

/-- An exponent as the scanner gives it. -/
structure IsExponent (e : NumeralExponent) : Prop where
  letter : isExponentLetter e.letter = true
  sign : IsSignText e.sign
  digits : ∀ b ∈ e.digits, Ascii.isDigit b = true

/-- What the scanner can give where a numeral starts. -/
structure WellFormed (n : Numeral) : Prop where
  sign : IsSignText n.sign
  whole_ne_nil : n.whole ≠ []
  whole : ∀ b ∈ n.whole, Ascii.isDigit b = true
  fraction : ∀ digits, n.fraction? = some digits → ∀ b ∈ digits, Ascii.isDigit b = true
  exponent : ∀ e, n.exponent? = some e → IsExponent e

/-- Whether the numeral is not over if this byte follows it. -/
def goesOn (n : Numeral) (b : UInt8) : Bool :=
  Ascii.isDigit b ||
    match n.exponent? with
    | some e => e.sign.isEmpty && e.digits.isEmpty && isSign b
    | none => isExponentLetter b || (n.fraction?.isNone && b == Ascii.dot)

theorem isSign_of_isDigit : ∀ b, Ascii.isDigit b = true → isSign b = false :=
  forall_byte (by decide +kernel)

theorem startsSymbol_of_isSign {b : UInt8} (h : isSign b = true) : startsSymbol b = true := by
  rcases Bool.or_eq_true_iff.1 h with h | h
  · rw [beq_iff_eq.1 h]
    decide
  · rw [beq_iff_eq.1 h]
    decide

theorem continuesSymbol_of_isSign {b : UInt8} (h : isSign b = true) : continuesSymbol b = true :=
  continuesSymbol_of_startsSymbol (startsSymbol_of_isSign h)

theorem continuesSymbol_of_isExponentLetter {b : UInt8} (h : isExponentLetter b = true) :
    continuesSymbol b = true := by
  rcases Bool.or_eq_true_iff.1 h with h | h
  · rw [beq_iff_eq.1 h]
    decide
  · rw [beq_iff_eq.1 h]
    decide

theorem continuesSymbol_of_goesOn {n : Numeral} {b : UInt8} (h : n.goesOn b = true) :
    continuesSymbol b = true := by
  rcases Bool.or_eq_true_iff.1 h with h | h
  · exact continuesSymbol_of_isDigit h
  cases he : n.exponent? with
  | some e =>
    simp only [he, Bool.and_eq_true] at h
    exact continuesSymbol_of_isSign h.2
  | none =>
    simp only [he, Bool.or_eq_true, Bool.and_eq_true] at h
    rcases h with h | ⟨-, h⟩
    · exact continuesSymbol_of_isExponentLetter h
    · rw [beq_iff_eq.1 h]
      decide

/-! ## Splitting -/

theorem splitSign_append {sign s : Bytes} (hsign : IsSignText sign)
    (hs : sign = [] → StopsAt isSign s) : splitSign (sign ++ s) = (sign, s) := by
  rcases hsign with rfl | ⟨b, rfl, hb⟩
  · cases s with
    | nil => rfl
    | cons b bs =>
      have hb := stopsAt_cons.1 (hs rfl)
      simp [splitSign, hb]
  · simp [splitSign, hb]

theorem splitSign_cases (s : Bytes) :
    s = (splitSign s).1 ++ (splitSign s).2 ∧ IsSignText (splitSign s).1 ∧
      ((splitSign s).1 = [] → StopsAt isSign (splitSign s).2) := by
  cases s with
  | nil => exact ⟨rfl, .inl rfl, fun _ => stopsAt_nil _⟩
  | cons b bs =>
    by_cases hb : isSign b = true
    · rw [splitSign, if_pos hb]
      exact ⟨rfl, .inr ⟨b, rfl, hb⟩, nofun⟩
    · rw [splitSign, if_neg hb]
      exact ⟨rfl, .inl rfl, fun _ => stopsAt_cons.2 (by simpa using hb)⟩

theorem splitFraction_append {digits? : Option Bytes} {s : Bytes}
    (hdigits : ∀ digits, digits? = some digits → ∀ b ∈ digits, Ascii.isDigit b = true)
    (hs : StopsAt Ascii.isDigit s) (hdot : digits? = none → StopsAt (· == Ascii.dot) s) :
    splitFraction (fractionText digits? ++ s) = (digits?, s) := by
  cases digits? with
  | none =>
    cases s with
    | nil => rfl
    | cons b bs =>
      have hb := stopsAt_cons.1 (hdot rfl)
      simp only [beq_eq_false_iff_ne] at hb
      simp [fractionText, splitFraction, hb]
  | some digits =>
    obtain ⟨htake, hdrop⟩ := takeWhile_append_of_stopsAt (hdigits digits rfl) hs
    simp [fractionText, splitFraction, htake, hdrop]

theorem splitFraction_cases (s : Bytes) (hs : StopsAt Ascii.isDigit s) :
    s = fractionText (splitFraction s).1 ++ (splitFraction s).2 ∧
      (∀ digits, (splitFraction s).1 = some digits → ∀ b ∈ digits, Ascii.isDigit b = true) ∧
      StopsAt Ascii.isDigit (splitFraction s).2 ∧
      ((splitFraction s).1 = none → StopsAt (· == Ascii.dot) (splitFraction s).2) := by
  cases s with
  | nil => exact ⟨rfl, nofun, stopsAt_nil _, fun _ => stopsAt_nil _⟩
  | cons b bs =>
    by_cases hb : b = Ascii.dot
    · rw [splitFraction, if_pos hb]
      refine ⟨?_, ?_, stopsAt_dropWhile _ bs, nofun⟩
      · rw [hb, fractionText, List.cons_append, List.takeWhile_append_dropWhile]
      · intro digits hdigits b hb
        cases hdigits
        exact List.mem_takeWhile_imp hb
    · rw [splitFraction, if_neg hb]
      exact ⟨rfl, nofun, hs, fun _ => stopsAt_cons.2 (beq_eq_false_iff_ne.2 hb)⟩

theorem splitExponent_of_letter {b : UInt8} (hb : isExponentLetter b = true) (s : Bytes) :
    splitExponent (b :: s) =
      some ⟨b, (splitSign s).1, (splitSign s).2.takeWhile Ascii.isDigit⟩ :=
  if_pos (by simpa [isExponentLetter] using hb)

theorem splitExponent_of_stopsAt {s : Bytes} (hs : StopsAt isExponentLetter s) :
    splitExponent s = none := by
  cases s with
  | nil => rfl
  | cons b bs =>
    have hb : ¬ (b = 0x65 ∨ b = 0x45) := by
      simpa [isExponentLetter] using stopsAt_cons.1 hs
    rw [splitExponent, if_neg hb]

theorem splitExponent_append {e? : Option NumeralExponent} {t : Bytes}
    (he : ∀ e, e? = some e → IsExponent e) (ht : StopsAt Ascii.isDigit t)
    (hnone : e? = none → StopsAt isExponentLetter t)
    (hsome : ∀ e, e? = some e → e.sign = [] → e.digits = [] → StopsAt isSign t) :
    splitExponent (exponentText e? ++ t) = e? := by
  cases e? with
  | none => exact splitExponent_of_stopsAt (hnone rfl)
  | some e =>
    obtain ⟨hletter, hsign, hdigits⟩ := he e rfl
    have hstops : e.sign = [] → StopsAt isSign (e.digits ++ t) := by
      intro hempty
      cases hd : e.digits with
      | nil => exact hsome e rfl hempty hd
      | cons b bs => exact stopsAt_cons.2 (isSign_of_isDigit b (hdigits b (by simp [hd])))
    obtain ⟨htake, -⟩ := takeWhile_append_of_stopsAt hdigits ht
    rw [exponentText, List.cons_append, List.append_assoc, splitExponent_of_letter hletter,
      splitSign_append hsign hstops, htake]

theorem splitExponent_cases (s : Bytes) (hs : StopsAt Ascii.isDigit s) :
    ∃ t, s = exponentText (splitExponent s) ++ t ∧
      (∀ e, splitExponent s = some e →
        IsExponent e ∧ (e.sign = [] → e.digits = [] → StopsAt isSign t)) ∧
      StopsAt Ascii.isDigit t ∧ (splitExponent s = none → t = s ∧ StopsAt isExponentLetter t) := by
  by_cases hletter : StopsAt isExponentLetter s
  · rw [splitExponent_of_stopsAt hletter]
    exact ⟨s, rfl, nofun, hs, fun _ => ⟨rfl, hletter⟩⟩
  · obtain ⟨b, bs, rfl, hb⟩ : ∃ b bs, s = b :: bs ∧ isExponentLetter b = true := by
      cases s with
      | nil => exact absurd (stopsAt_nil _) hletter
      | cons b bs => exact ⟨b, bs, rfl, by simpa [stopsAt_cons] using hletter⟩
    obtain ⟨heq, hsign, hstops⟩ := splitSign_cases bs
    have hdigits := List.takeWhile_append_dropWhile (p := Ascii.isDigit) (l := (splitSign bs).2)
    rw [splitExponent_of_letter hb]
    refine ⟨(splitSign bs).2.dropWhile Ascii.isDigit, ?_, ?_, stopsAt_dropWhile _ _, nofun⟩
    · rw [exponentText, List.cons_append, List.append_assoc, hdigits, ← heq]
    · intro e he
      cases he
      refine ⟨⟨hb, hsign, fun b hb => List.mem_takeWhile_imp hb⟩, fun hempty hnone => ?_⟩
      dsimp only at hempty hnone
      rw [hnone, List.nil_append] at hdigits
      rw [hdigits]
      exact hstops hempty

/-! ## Scanning -/

/-- A numeral is scanned as a whole in front of a text that does not go on with it. -/
theorem scan_text_append {n : Numeral} (hn : n.WellFormed) {t : Bytes} (ht : StopsAt n.goesOn t) :
    scan (n.text ++ t) = n := by
  have hdigit : StopsAt Ascii.isDigit t := ht.mono fun b hb => by simp [goesOn, hb]
  have hletter : n.exponent? = none → StopsAt isExponentLetter t := fun he =>
    ht.mono fun b hb => by simp [goesOn, he, hb]
  have hsign : ∀ e, n.exponent? = some e → e.sign = [] → e.digits = [] → StopsAt isSign t :=
    fun e he hs hd => ht.mono fun b hb => by simp [goesOn, he, hs, hd, hb]
  have hexponent := splitExponent_append hn.exponent hdigit hletter hsign
  -- what stands behind the whole digits is a point, a letter or the text behind the numeral
  have hbehindFraction : StopsAt Ascii.isDigit (exponentText n.exponent? ++ t) ∧
      (n.fraction? = none → StopsAt (· == Ascii.dot) (exponentText n.exponent? ++ t)) := by
    cases he : n.exponent? with
    | none =>
      refine ⟨hdigit, fun hf => ht.mono fun b hb => ?_⟩
      simp [goesOn, he, hf, beq_iff_eq.1 hb]
    | some e =>
      have hletter : e.letter = 0x65 ∨ e.letter = 0x45 := by
        simpa [isExponentLetter] using (hn.exponent e he).letter
      rcases hletter with h | h <;>
        exact ⟨stopsAt_cons.2 (by rw [h]; decide), fun _ => stopsAt_cons.2 (by rw [h]; decide)⟩
  have hfraction := splitFraction_append hn.fraction hbehindFraction.1 hbehindFraction.2
  have hbehindWhole : StopsAt Ascii.isDigit
      (fractionText n.fraction? ++ (exponentText n.exponent? ++ t)) := by
    cases n.fraction? with
    | none => exact hbehindFraction.1
    | some digits => exact stopsAt_cons.2 (by decide)
  obtain ⟨htake, hdrop⟩ := takeWhile_append_of_stopsAt hn.whole hbehindWhole
  have hbehindSign : n.sign = [] → StopsAt isSign
      (n.whole ++ (fractionText n.fraction? ++ (exponentText n.exponent? ++ t))) := by
    intro _
    obtain ⟨d, ds, hd⟩ := List.exists_cons_of_ne_nil hn.whole_ne_nil
    rw [hd]
    exact stopsAt_cons.2 (isSign_of_isDigit d (hn.whole d (by simp [hd])))
  rw [text_eq]
  simp only [List.append_assoc, scan, splitSign_append hn.sign hbehindSign, htake, hdrop, hfraction,
    hexponent]

/-! ## Where a numeral starts -/

theorem not_starts_quote (s : Bytes) : starts (Ascii.quote :: s) = false := by
  cases s <;> rfl

/-- A colon is neither a sign nor a digit, so `:5` is no number. -/
theorem not_starts_colon (s : Bytes) : starts (Ascii.colon :: s) = false := by
  cases s <;> rfl

/-- A word that ends is no numeral because of what follows. -/
theorem starts_append_of_delimits {s t : Bytes} (hs : s ≠ []) (ht : delimits t = true) :
    starts (s ++ t) = starts s := by
  obtain ⟨b, bs, rfl⟩ := List.exists_cons_of_ne_nil hs
  rcases t with _ | ⟨c, cs⟩
  · rw [List.append_nil]
  rcases bs with _ | ⟨b', bs⟩
  · have hc : Ascii.isDigit c = false := by
      cases hc : Ascii.isDigit c with
      | false => rfl
      | true => simp [delimits, continuesSymbol_of_isDigit hc] at ht
    simp [starts, hc]
  · rfl

theorem starts_of_starts_takeWhile {p : UInt8 → Bool} {s : Bytes}
    (h : starts (s.takeWhile p) = true) : starts s = true := by
  match s with
  | [] => exact h
  | [b] =>
    by_cases hb : p b
    · rwa [List.takeWhile_cons_of_pos hb] at h
    · rw [List.takeWhile_cons_of_neg hb] at h
      cases h
  | b :: c :: cs =>
    by_cases hb : p b
    · rw [List.takeWhile_cons_of_pos hb] at h
      by_cases hc : p c
      · rwa [List.takeWhile_cons_of_pos hc] at h
      · rw [List.takeWhile_cons_of_neg hc] at h
        exact Bool.or_eq_true_iff.2 (.inl h)
    · rw [List.takeWhile_cons_of_neg hb] at h
      cases h

theorem starts_text_append {n : Numeral} (hn : n.WellFormed) (t : Bytes) :
    starts (n.text ++ t) = true := by
  obtain ⟨d, ds, hd⟩ := List.exists_cons_of_ne_nil hn.whole_ne_nil
  have hdigit : Ascii.isDigit d = true := hn.whole d (by simp [hd])
  rw [text_eq, hd]
  rcases hn.sign with hsign | ⟨b, hsign, hb⟩
  · rw [hsign, List.nil_append, List.cons_append, List.cons_append]
    cases ds ++ (fractionText n.fraction? ++ exponentText n.exponent?) ++ t with
    | nil => exact hdigit
    | cons => simp [starts, hdigit]
  · rw [hsign]
    simp [starts, hb, hdigit]

theorem whole_ne_nil_of_starts {s : Bytes} (h : starts s = true) :
    (splitSign s).2.takeWhile Ascii.isDigit ≠ [] := by
  match s with
  | [] => cases h
  | [b] =>
    have hb : Ascii.isDigit b = true := h
    simp [splitSign, isSign_of_isDigit b hb, hb]
  | b :: c :: cs =>
    by_cases hb : Ascii.isDigit b = true
    · simp [splitSign, isSign_of_isDigit b hb, hb]
    · have hsign : isSign b = true ∧ Ascii.isDigit c = true := by
        simpa [starts, hb] using h
      simp [splitSign, hsign]

/-- Where a numeral starts, the scanner takes a well-formed one and leaves nothing of it. -/
theorem exists_scan {s : Bytes} (h : starts s = true) :
    ∃ t, s = (scan s).text ++ t ∧ (scan s).WellFormed ∧ StopsAt (scan s).goesOn t := by
  obtain ⟨hsignEq, hsign, -⟩ := splitSign_cases s
  have hwholeEq := List.takeWhile_append_dropWhile (p := Ascii.isDigit) (l := (splitSign s).2)
  obtain ⟨hfractionEq, hfraction, hfractionStops, hdot⟩ :=
    splitFraction_cases ((splitSign s).2.dropWhile Ascii.isDigit) (stopsAt_dropWhile _ _)
  obtain ⟨t, hexponentEq, hexponent, hdigit, hnone⟩ := splitExponent_cases _ hfractionStops
  refine ⟨t, ?_, ?_, ?_⟩
  · rw [text_eq]
    simp only [scan, List.append_assoc]
    rw [← hexponentEq, ← hfractionEq, hwholeEq, ← hsignEq]
  · exact {
      sign := hsign
      whole_ne_nil := whole_ne_nil_of_starts h
      whole := fun b hb => List.mem_takeWhile_imp hb
      fraction := hfraction
      exponent := fun e he => (hexponent e he).1 }
  · intro b hb
    rw [goesOn, hdigit b hb, Bool.false_or]
    cases he : (scan s).exponent? with
    | some e =>
      obtain ⟨-, hstops⟩ := hexponent e he
      dsimp only
      cases hempty : e.sign.isEmpty && e.digits.isEmpty with
      | false => rfl
      | true =>
        rw [Bool.and_eq_true, List.isEmpty_iff, List.isEmpty_iff] at hempty
        exact hstops hempty.1 hempty.2 b hb
    | none =>
      obtain ⟨rfl, hletter⟩ := hnone he
      dsimp only
      rw [hletter b hb, Bool.false_or]
      cases hf : (scan s).fraction? with
      | some digits => rfl
      | none => exact hdot hf b hb

/-! ## Printed integers -/

/-- The numeral that is printed for an integer. -/
def ofInt (i : Int) : Numeral :=
  ⟨if i < 0 then [Ascii.minus] else [], Bytes.ofNat i.natAbs, none, none⟩

theorem wellFormed_ofInt (i : Int) : (ofInt i).WellFormed where
  sign := by
    simp only [ofInt]
    split
    · exact .inr ⟨_, rfl, rfl⟩
    · exact .inl rfl
  whole_ne_nil := Bytes.ofNat_ne_nil _
  whole := fun _ => Bytes.isDigit_of_mem_ofNat
  fraction := nofun
  exponent := nofun

theorem text_ofInt (i : Int) : (ofInt i).text = Bytes.ofInt i := by
  cases i with
  | ofNat n => simp [text, Bytes.ofInt, ofInt]
  | negSucc n => simp [text, Bytes.ofInt, ofInt, Int.negSucc_lt_zero]

theorem integer_ofInt (i : Int) : (ofInt i).integer = i := by
  have hsize : Bytes.toNat (ofInt i).whole = i.natAbs := Bytes.toNat_ofNat _
  by_cases hi : i < 0
  · have hsign : (ofInt i).isNegative = true := by simp [isNegative, ofInt, hi]
    rw [integer, hsize, hsign, if_pos rfl]
    omega
  · have hsign : (ofInt i).isNegative = false := by simp [isNegative, ofInt, hi]
    rw [integer, hsize, hsign, if_neg Bool.false_ne_true]
    omega

theorem int64?_ofInt (i : Int64) : (ofInt i.toInt).int64? = some i := by
  rw [int64?, integer_ofInt, if_pos ⟨i.le_toInt, i.toInt_lt⟩, Int64.ofInt_toInt]

end Numeral

end Equate
