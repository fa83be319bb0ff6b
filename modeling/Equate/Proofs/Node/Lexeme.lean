import Equate.Node.Printer
import Equate.Node.Reader
/-!
# Lexemes in front of a text

What the printer writes for a node without parts is read back byte by byte, whatever follows, as
long as no word goes on there (`delimits`). A space and the closing brackets end every lexeme, so
printed lexemes never run into each other.
-/

namespace Equate

/-! ## Bytes -/

theorem forall_byte {p : UInt8 → Prop} (h : ∀ n : Fin 256, p (UInt8.ofFin n)) (b : UInt8) : p b :=
  h b.toFin

/-- Whether a form can start with this byte: it is no blank, opens no comment and closes no
collection. -/
def startsForm (b : UInt8) : Bool :=
  !isBlank b && b != Ascii.semicolon && b != Ascii.rightParen && b != Ascii.rightBracket &&
    b != Ascii.rightBrace

/-- Whether a form without parts can start with this byte. -/
def startsAtom (b : UInt8) : Bool :=
  startsForm b && b != Ascii.leftParen && b != Ascii.leftBracket && b != Ascii.leftBrace &&
    b != Ascii.hash

theorem startsForm_of_startsAtom {b : UInt8} (h : startsAtom b = true) : startsForm b = true := by
  simp only [startsAtom, Bool.and_eq_true] at h
  exact h.1.1.1.1

theorem startsAtom_of_isLetter : ∀ b, Ascii.isLetter b = true → startsAtom b = true :=
  forall_byte (by decide +kernel)

theorem startsAtom_of_isDigit : ∀ b, Ascii.isDigit b = true → startsAtom b = true :=
  forall_byte (by decide +kernel)

theorem startsAtom_of_startsSymbol {b : UInt8} (h : startsSymbol b = true) :
    startsAtom b = true := by
  have hsigns : ∀ b ∈ utf8 "*!_?-+/<>=$%&", startsAtom b = true := by decide +kernel
  rcases Bool.or_eq_true_iff.1 h with h | h
  · exact startsAtom_of_isLetter b h
  · exact hsigns b (List.contains_iff_mem.1 h)

theorem continuesSymbol_of_isDigit {b : UInt8} (h : Ascii.isDigit b = true) :
    continuesSymbol b = true := by
  simp [continuesSymbol, h]

theorem continuesSymbol_of_startsSymbol {b : UInt8} (h : startsSymbol b = true) :
    continuesSymbol b = true := by
  simp [continuesSymbol, h]

/-! ## Ends of words -/

/-- Whether a word that stands in front of this text ends there. -/
def delimits (rest : Bytes) : Bool := rest.head?.all fun b => !continuesSymbol b

/-- Whether no byte of kind `p` is in front of this text. -/
def StopsAt (p : UInt8 → Bool) (t : Bytes) : Prop := ∀ b ∈ t.head?, p b = false

theorem stopsAt_nil (p : UInt8 → Bool) : StopsAt p [] := nofun

theorem stopsAt_cons {p : UInt8 → Bool} {b : UInt8} {t : Bytes} :
    StopsAt p (b :: t) ↔ p b = false := by
  simp [StopsAt]

theorem StopsAt.mono {p q : UInt8 → Bool} {t : Bytes} (h : StopsAt q t)
    (hpq : ∀ b, p b = true → q b = true) : StopsAt p t := by
  intro b hb
  cases hpb : p b with
  | false => rfl
  | true =>
    rw [← h b hb, hpq b hpb]

theorem delimits_iff {t : Bytes} : delimits t = true ↔ StopsAt continuesSymbol t := by
  cases t with
  | nil => exact ⟨fun _ => stopsAt_nil _, fun _ => rfl⟩
  | cons b bs => simp [delimits, stopsAt_cons]

theorem takeWhile_append_of_stopsAt {p : UInt8 → Bool} {s t : Bytes} (hs : ∀ b ∈ s, p b = true)
    (ht : StopsAt p t) : (s ++ t).takeWhile p = s ∧ (s ++ t).dropWhile p = t := by
  rw [List.takeWhile_append_of_pos hs, List.dropWhile_append_of_pos hs]
  cases t with
  | nil => exact ⟨List.append_nil s, rfl⟩
  | cons b bs =>
    rw [stopsAt_cons] at ht
    simp [ht]

theorem stopsAt_dropWhile (p : UInt8 → Bool) (s : Bytes) : StopsAt p (s.dropWhile p) := by
  induction s with
  | nil => exact stopsAt_nil p
  | cons b bs ih =>
    by_cases hb : p b = true
    · rwa [List.dropWhile_cons_of_pos hb]
    · rw [List.dropWhile_cons_of_neg hb, stopsAt_cons]
      simpa using hb

theorem bracket?_of_startsAtom {b : UInt8} (h : startsAtom b = true) (bs : Bytes) :
    bracket? (b :: bs) = .ok none := by
  simp only [startsAtom, Bool.and_eq_true, bne_iff_ne] at h
  obtain ⟨⟨⟨⟨-, hparen⟩, hbracket⟩, hbrace⟩, hhash⟩ := h
  simp only [bracket?, hparen, hbracket, hbrace, hhash, if_false]

/-! ## Numbers -/

namespace Bytes

theorem digit_toUInt8 {c : Char} (h : c.isDigit = true) :
    Ascii.isDigit c.toUInt8 = true ∧ (c.toUInt8 - Ascii.zero).toNat = c.toNat - '0'.toNat := by
  obtain ⟨hlow, hhigh⟩ : 48 ≤ c.toNat ∧ c.toNat ≤ 57 := by
    simpa [Char.isDigit, UInt32.le_iff_toNat_le] using h
  have hnat : c.toUInt8.toNat = c.toNat := by
    show c.val.toUInt8.toNat = c.val.toNat
    rw [UInt32.toNat_toUInt8]
    exact Nat.mod_eq_of_lt (by show c.toNat < 256; omega)
  constructor
  · simp [Ascii.isDigit, UInt8.le_iff_toNat_le, hnat, hlow, hhigh]
  · rw [UInt8.toNat_sub_of_le _ _ (by rw [UInt8.le_iff_toNat_le, hnat]; exact hlow), hnat]
    rfl

theorem isDigit_of_mem_ofNat {n : Nat} {b : UInt8} (h : b ∈ ofNat n) : Ascii.isDigit b = true := by
  obtain ⟨c, hc, rfl⟩ := List.mem_map.1 h
  exact (digit_toUInt8 (Nat.isDigit_of_mem_toDigits (by decide) (by decide) hc)).1

theorem ofNat_ne_nil (n : Nat) : ofNat n ≠ [] := by
  simp [ofNat]

theorem toNat_ofNat (n : Nat) : toNat (ofNat n) = n := by
  have hdigits (cs : List Char) (hcs : ∀ c ∈ cs, c.isDigit = true) (init : Nat) :
      (cs.map Char.toUInt8).foldl (fun n b => 10 * n + (b - Ascii.zero).toNat) init =
        Nat.ofDigitChars 10 cs init := by
    induction cs generalizing init with
    | nil => rfl
    | cons c cs ih =>
      rw [List.map_cons, List.foldl_cons, (digit_toUInt8 (hcs c (by simp))).2,
        Nat.ofDigitChars_cons, ih fun d hd => hcs d (by simp [hd])]
  rw [toNat, ofNat, hdigits _ fun c hc => Nat.isDigit_of_mem_toDigits (by decide) (by decide) hc,
    Nat.ofDigitChars_ten_toDigits]

end Bytes

/-! ## Strings -/

theorem escaped_cons (b : UInt8) (s : Bytes) :
    Node.escaped (b :: s) =
      (if b = Ascii.quote ∨ b = Ascii.backslash then [Ascii.backslash, b] else [b]) ++
        Node.escaped s := by
  simp [Node.escaped]

theorem stringBody_quote (rest : Bytes) : stringBody (Ascii.quote :: rest) = some ([], 1) := by
  rw [stringBody.eq_def]
  rfl

theorem stringBody_backslash (b : UInt8) (rest : Bytes) :
    stringBody (Ascii.backslash :: b :: rest) =
      (stringBody rest).map fun (text, n) => (unescape b :: text, n + 2) := by
  rw [stringBody.eq_def]
  rfl

theorem stringBody_plain {b : UInt8} (hquote : b ≠ Ascii.quote) (hbackslash : b ≠ Ascii.backslash)
    (rest : Bytes) :
    stringBody (b :: rest) = (stringBody rest).map fun (text, n) => (b :: text, n + 1) := by
  rw [stringBody.eq_def]
  simp only [if_neg hquote, if_neg hbackslash]

/-- The escapes of the printer are among those of the reader. -/
theorem stringBody_escaped (s rest : Bytes) :
    stringBody (Node.escaped s ++ Ascii.quote :: rest) = some (s, (Node.escaped s).length + 1) := by
  induction s with
  | nil => exact stringBody_quote rest
  | cons b s ih =>
    rw [escaped_cons]
    split
    · rename_i hb
      have hunescape : unescape b = b := by
        rcases hb with rfl | rfl <;> rfl
      simp [stringBody_backslash, ih, hunescape]
    · rename_i hb
      obtain ⟨hquote, hbackslash⟩ := not_or.1 hb
      simp [stringBody_plain hquote hbackslash, ih]

end Equate
