import Equate.Diagnostic.Json
import Equate.Proofs.Emission.Reading
import Equate.Proofs.Node.Numeral
/-!
# Reading JSON

A reader of JSON texts that works on bytes: it takes blanks where they may stand, all escapes of
strings, and the numbers of the grammar, and takes a text for what it says, whoever wrote it. The
laws tell what it makes of strings, integers, arrays and objects as reports print them (`Denotes`).
Only a number needs to know what stands behind it.
-/

namespace Equate

namespace Json

open TextReader

/-- A JSON value. Strings are bytes, numbers stay as they are written. -/
inductive Value where
  | null
  | bool (b : Bool)
  | number (n : Numeral)
  | string (s : Bytes)
  | array (items : List Value)
  | object (fields : List (Bytes × Value))

/-! ## Readers -/

def isBlank (b : UInt8) : Bool :=
  b == Ascii.space || b == Ascii.tab || b == Ascii.newline || b == Ascii.carriageReturn

def blanks : TextReader Unit := fun s => some ((), s.dropWhile isBlank)

/-- Reads a byte that can have blanks in front of it. -/
def token (b : UInt8) : TextReader Unit := do
  blanks
  text [b]

/-! ### Strings -/

def hexValue? (b : UInt8) : Option Nat :=
  if Ascii.isDigit b then some (b - 0x30).toNat
  else if 0x41 ≤ b && b ≤ 0x46 then some (b - 0x37).toNat
  else if 0x61 ≤ b && b ≤ 0x66 then some (b - 0x57).toNat
  else none

/-- Reads four hexadecimal digits. -/
def readUnit : TextReader Nat := fun s =>
  match (s.take 4).mapM hexValue? with
  | some [a, b, c, d] => some (0x1000 * a + 0x100 * b + 0x10 * c + d, s.drop 4)
  | _ => none

/-- The UTF-8 bytes of a code point. -/
def codePoint (n : Nat) : Bytes := utf8 (String.singleton (Char.ofNat n))

/-- Reads what stands behind `\u`. A code point beyond the first plane is written as two units. -/
def readUnicode : TextReader Bytes := do
  let n ← readUnit
  if n < 0xd800 ∨ 0xdfff < n then return codePoint n
  else if n < 0xdc00 then
    text "\\u"
    let m ← readUnit
    if 0xdc00 ≤ m ∧ m ≤ 0xdfff then
      return codePoint (0x10000 + 0x400 * (n - 0xd800) + (m - 0xdc00))
    else failure
  else failure

/-- The bytes that are escaped by a single other one. -/
def escapes : List (UInt8 × UInt8) :=
  [(Ascii.quote, Ascii.quote), (Ascii.backslash, Ascii.backslash), (Ascii.slash, Ascii.slash),
    (0x62, 0x08), (0x66, Ascii.formFeed), (0x6e, Ascii.newline), (0x72, Ascii.carriageReturn),
    (0x74, Ascii.tab)]

/-- Reads what stands behind a backslash. -/
def readEscape : TextReader Bytes := fun s =>
  match s with
  | [] => none
  | b :: rest =>
    if b = 0x75 then readUnicode.run rest
    else (escapes.lookup b).map fun c => ([c], rest)

/-- Reads a byte of a string or an escape. -/
def readCharacter : TextReader Bytes := fun s =>
  match s with
  | [] => none
  | b :: rest =>
    if b = Ascii.backslash then readEscape.run rest
    else if b = Ascii.quote ∨ b < Ascii.space then none
    else some ([b], rest)

def readString : TextReader Bytes := do
  text [Ascii.quote]
  let pieces ← many readCharacter
  text [Ascii.quote]
  return pieces.flatten

/-! ### Numbers -/

/-- Whether a numeral is a number of JSON: no plus sign in front, no zero in front of other digits,
and digits wherever they can stand. -/
def isNumber (n : Numeral) : Bool :=
  n.sign != [Ascii.plus] && !n.whole.isEmpty &&
    (n.whole.length == 1 || n.whole.head? != some Ascii.zero) &&
    n.fraction?.all (fun digits => !digits.isEmpty) &&
    n.exponent?.all fun e => !e.digits.isEmpty

def readNumber : TextReader Numeral := fun s =>
  let n := Numeral.scan s
  if isNumber n then some (n, s.drop n.text.length) else none

/-! ### Values -/

/-- Reads texts of one kind with commas between them. -/
def readSeparated {α : Type} (r : TextReader α) : TextReader (List α) := do
  let x ← r
  let xs ← many do
    token Ascii.comma
    r
  return x :: xs

/-- Reads such texts between two brackets, or none. -/
def readBetween {α : Type} (opening closing : UInt8) (r : TextReader α) :
    TextReader (List α) := do
  text [opening]
  (do token closing; return []) <|> do
    let xs ← readSeparated r
    token closing
    return xs

/-- Reads a key and its value. -/
def readField (r : TextReader Value) : TextReader (Bytes × Value) := do
  blanks
  let key ← readString
  token Ascii.colon
  let v ← r
  return (key, v)

def readWord (word : Bytes) (v : Value) : TextReader Value := do
  text word
  return v

/-- Reads a value at its first byte, and the values in it by `r`. -/
def readHere (r : TextReader Value) : TextReader Value :=
  Value.string <$> readString <|>
    Value.array <$> readBetween Ascii.leftBracket Ascii.rightBracket r <|>
    Value.object <$> readBetween Ascii.leftBrace Ascii.rightBrace (readField r) <|>
    Value.number <$> readNumber <|>
    readWord "true" (.bool true) <|> readWord "false" (.bool false) <|> readWord "null" .null

/-- Reads a value that is nested no deeper than this. -/
def readValue : Nat → TextReader Value
  | 0 => failure
  | depth + 1 => do
    blanks
    readHere (readValue depth)

/-- Reads a text that holds one value. No value is nested deeper than its text is long. -/
def Value.read (s : Bytes) : Option Value :=
  match (readValue s.length).run s with
  | some (v, rest) => if rest.all isBlank then some v else none
  | none => none

/-! ## Laws of the readers -/

/-- Whether a number is not over if this byte follows it. -/
def continuesNumber (b : UInt8) : Bool :=
  Ascii.isDigit b || Numeral.isExponentLetter b || b == Ascii.dot

/-- Whether this text is read as `x` in front of any text that does not go on with a number. -/
def ReadsAhead {α : Type} (r : TextReader α) (t : Bytes) (x : α) : Prop :=
  ∀ rest, StopsAt continuesNumber rest → r.run (t ++ rest) = some (x, rest)

/-- Whether a byte can be the first one of a value. -/
def startsValue (b : UInt8) : Bool :=
  !isBlank b && b != Ascii.comma && b != Ascii.rightBracket && b != Ascii.rightBrace

variable {α β : Type} {r q : TextReader α} {t u : Bytes} {x : α} {b c : UInt8}

theorem ReadsAhead.of_reads (h : Reads r t x) : ReadsAhead r t x := fun rest _ => h rest

theorem ReadsAhead.bind {g : β → TextReader α} {s : TextReader β} {y : β} (h : Reads s t y)
    (hg : ReadsAhead (g y) u x) : ReadsAhead (s >>= g) (t ++ u) x := by
  intro rest hrest
  rw [StateT.run_bind, List.append_assoc, h]
  exact hg rest hrest

theorem ReadsAhead.map (h : ReadsAhead r t x) (f : α → β) : ReadsAhead (f <$> r) t (f x) := by
  intro rest hrest
  rw [StateT.run_map, h rest hrest]
  rfl

theorem ReadsAhead.orElse_left (h : ReadsAhead r t x) (q : TextReader α) :
    ReadsAhead (r <|> q) t x := by
  intro rest hrest
  rw [run_orElse, h rest hrest]
  rfl

theorem ReadsAhead.orElse_right (h : ReadsAhead q t x) (hr : Rejects r t) :
    ReadsAhead (r <|> q) t x := by
  intro rest hrest
  rw [run_orElse, hr, h rest hrest]
  rfl

/-! ### Blanks -/

theorem rejects_text_cons (hbc : b ≠ c) (s : Bytes) : Rejects (text [b]) (c :: s) :=
  (rejects_text (t := [b]) (u := [c]) (by simp [hbc]) (by simp [Ne.symm hbc])).append s

theorem run_blanks (hb : isBlank b = false) (s : Bytes) :
    blanks.run (b :: s) = some ((), b :: s) := by
  show some ((), List.dropWhile isBlank (b :: s)) = _
  rw [List.dropWhile_cons_of_neg (by rw [hb]; exact Bool.false_ne_true)]

theorem reads_token (hb : isBlank b = false) : Reads (token b) [b] () := by
  intro rest
  unfold token
  rw [StateT.run_bind, List.singleton_append, run_blanks hb]
  exact run_text_append [b] rest

theorem rejects_token (hc : isBlank c = false) (hbc : b ≠ c) (s : Bytes) :
    Rejects (token b) (c :: s) := by
  intro rest
  unfold token
  rw [StateT.run_bind, List.cons_append, run_blanks hc]
  exact rejects_text_cons hbc s rest

/-! ### Strings -/

theorem hexValue?_hexDigit :
    ∀ b : UInt8, b < 16 → hexValue? (hexDigit b) = some b.toNat :=
  forall_byte (by decide +kernel)

theorem codePoint_toNat : ∀ b : UInt8, b < Ascii.space → codePoint b.toNat = [b] :=
  forall_byte (by decide +kernel)

theorem run_readUnit {b : UInt8} (hb : b < Ascii.space) (rest : Bytes) :
    readUnit.run (utf8 "00" ++ [hexDigit (b / 16), hexDigit (b % 16)] ++ rest) =
      some (b.toNat, rest) := by
  have hzero : hexValue? 0x30 = some 0 := by decide
  have hdigits : b / 16 < 16 ∧ b % 16 < 16 ∧ 0x10 * (b / 16).toNat + (b % 16).toNat = b.toNat :=
    forall_byte (p := fun b => b < Ascii.space → b / 16 < 16 ∧ b % 16 < 16 ∧
      0x10 * (b / 16).toNat + (b % 16).toNat = b.toNat) (by decide +kernel) b hb
  obtain ⟨hhigh, hlow, hsum⟩ := hdigits
  have hmap : (List.take 4 (utf8 "00" ++ [hexDigit (b / 16), hexDigit (b % 16)] ++ rest)).mapM
      hexValue? = some [0, 0, (b / 16).toNat, (b % 16).toNat] := by
    show List.mapM hexValue? [0x30, 0x30, hexDigit (b / 16), hexDigit (b % 16)] = _
    simp [hzero, hexValue?_hexDigit _ hhigh, hexValue?_hexDigit _ hlow]
  unfold readUnit
  simp only [StateT.run, hmap, Nat.mul_zero, Nat.zero_add, hsum]
  rfl

theorem reads_readUnicode {b : UInt8} (hb : b < Ascii.space) :
    Reads readUnicode (utf8 "00" ++ [hexDigit (b / 16), hexDigit (b % 16)]) [b] := by
  intro rest
  have hunit : b.toNat < 0xd800 := Nat.lt_trans b.toNat_lt (by decide)
  unfold readUnicode
  rw [StateT.run_bind, run_readUnit hb]
  show StateT.run (if _ then _ else _) rest = _
  rw [if_pos (.inl hunit), codePoint_toNat b hb]
  rfl

/-- A byte is written as a backslash and another byte, as a code, or as it is. -/
theorem escape_cases (b : UInt8) :
    (∃ c, c ≠ 0x75 ∧ escapes.lookup c = some b ∧ escape b = [Ascii.backslash, c]) ∨
    (b < Ascii.space ∧ escape b = utf8 "\\u00" ++ [hexDigit (b / 16), hexDigit (b % 16)]) ∨
    b ≠ Ascii.quote ∧ b ≠ Ascii.backslash ∧ ¬ b < Ascii.space ∧ escape b = [b] := by
  unfold escape
  split_ifs with hquote hbackslash hnewline hreturn htab hcontrol
  · exact .inl ⟨Ascii.quote, by decide, by rw [hquote]; rfl, rfl⟩
  · exact .inl ⟨Ascii.backslash, by decide, by rw [hbackslash]; rfl, rfl⟩
  · exact .inl ⟨0x6e, by decide, by rw [hnewline]; rfl, rfl⟩
  · exact .inl ⟨0x72, by decide, by rw [hreturn]; rfl, rfl⟩
  · exact .inl ⟨0x74, by decide, by rw [htab]; rfl, rfl⟩
  · exact .inr (.inl ⟨hcontrol, rfl⟩)
  · exact .inr (.inr ⟨hquote, hbackslash, hcontrol, rfl⟩)

/-- Whatever a byte is written as, it is read as this byte. -/
theorem reads_readCharacter (b : UInt8) : Reads readCharacter (escape b) [b] := by
  intro rest
  rcases escape_cases b with ⟨c, hcode, hlookup, heq⟩ | ⟨hcontrol, heq⟩ |
    ⟨hquote, hbackslash, hspace, heq⟩
  · rw [heq]
    show (if c = 0x75 then readUnicode.run rest else (escapes.lookup c).map _) = _
    rw [if_neg hcode, hlookup]
    rfl
  · rw [heq, List.append_assoc]
    exact reads_readUnicode hcontrol rest
  · rw [heq]
    show (if b = Ascii.backslash then _ else if b = Ascii.quote ∨ b < Ascii.space then none
      else some ([b], rest)) = _
    rw [if_neg hbackslash, if_neg (not_or.2 ⟨hquote, hspace⟩)]

theorem rejects_readCharacter : Rejects readCharacter [Ascii.quote] := by
  intro rest
  rfl

theorem escape_ne_nil : ∀ b, escape b ≠ [] :=
  forall_byte (by decide +kernel)

theorem reads_readString (s : Bytes) : Reads readString (string s) s := by
  have hpieces : (s.map fun b => [b]).flatten = s := by
    rw [← List.flatMap_def, List.flatMap_singleton']
  have h := Reads.many (f := fun pieces => do text [Ascii.quote]; return pieces.flatten)
    (Reads.last [Ascii.quote] (s.map fun b => [b]).flatten) (fun b _ => reads_readCharacter b)
    (fun b _ => escape_ne_nil b) rejects_readCharacter
  rw [hpieces] at h
  exact Reads.text h [Ascii.quote]

/-! ### Numbers -/

/-- No digits but those of zero start with a zero. -/
theorem head?_ofNat {n : Nat} (hn : 0 < n) : (Bytes.ofNat n).head? ≠ some Ascii.zero := by
  induction n using Nat.strongRecOn with
  | _ n ih =>
    unfold Bytes.ofNat
    by_cases hsmall : n < 10
    · rw [Nat.toDigits_of_lt_base hsmall]
      have hdigit : ∀ n < 10, 0 < n → (Nat.digitChar n).toUInt8 ≠ Ascii.zero := by decide
      simpa using hdigit n hsmall hn
    · -- more than one digit: the first one is that of the quotient
      have hfirst := ih (n / 10) (Nat.div_lt_self hn (by decide)) (by omega)
      have hne := Bytes.ofNat_ne_nil (n / 10)
      unfold Bytes.ofNat at hfirst hne
      rw [Nat.toDigits_of_base_le (by decide) (by omega), List.map_append,
        List.head?_append]
      rwa [Option.or_of_isSome (List.isSome_head?.2 hne)]

theorem isNumber_ofInt (i : Int) : isNumber (.ofInt i) = true := by
  have hsign : (if i < 0 then [Ascii.minus] else []) ≠ [Ascii.plus] := by
    split <;> decide
  have hwhole : (Bytes.ofNat i.natAbs).length = 1 ∨
      (Bytes.ofNat i.natAbs).head? ≠ some Ascii.zero := by
    by_cases hi : i = 0
    · left
      rw [hi]
      rfl
    · exact .inr (head?_ofNat (Int.natAbs_pos.2 hi))
  have hne := Bytes.ofNat_ne_nil i.natAbs
  simp [isNumber, Numeral.ofInt, hsign, hne, hwhole]

theorem readsAhead_readNumber (i : Int) : ReadsAhead readNumber (Bytes.ofInt i) (.ofInt i) := by
  intro rest hrest
  have hscan : Numeral.scan (Bytes.ofInt i ++ rest) = .ofInt i := by
    rw [← Numeral.text_ofInt]
    apply Numeral.scan_text_append (Numeral.wellFormed_ofInt i)
    apply hrest.mono
    intro b hb
    simpa [Numeral.goesOn, Numeral.ofInt, continuesNumber, Bool.or_assoc] using hb
  unfold readNumber
  simp only [StateT.run, hscan, isNumber_ofInt, if_true, Numeral.text_ofInt, List.drop_left]

/-! ### Brackets -/

/-- Whether a value can start with the first byte of this text. -/
def StartsValue (t : Bytes) : Prop := ∃ b s, t = b :: s ∧ startsValue b = true

theorem isBlank_of_startsValue (h : startsValue b = true) : isBlank b = false := by
  simp only [startsValue, Bool.and_eq_true, Bool.not_eq_true'] at h
  exact h.1.1.1

theorem StartsValue.rejects_token (h : StartsValue t) (hb : startsValue b = false) :
    Rejects (token b) t := by
  obtain ⟨c, s, rfl, hc⟩ := h
  apply Json.rejects_token (isBlank_of_startsValue hc)
  rintro rfl
  rw [hb] at hc
  cases hc

variable {p : β → Bytes} {v : β → α} {xs : List β} {y : β} {closing : UInt8}

theorem run_readSeparated (hreads : ∀ z ∈ y :: xs, ReadsAhead r (p z) (v z)) {rest : Bytes}
    (hrest : StopsAt continuesNumber rest) (hstop : (token Ascii.comma).run rest = none) :
    (readSeparated r).run (Bytes.join [Ascii.comma] ((y :: xs).map p) ++ rest) =
      some ((y :: xs).map v, rest) := by
  rw [List.forall_mem_cons] at hreads
  -- the first text can be a number: what stands behind it is a comma or the rest
  have hbehind : StopsAt continuesNumber
      ((xs.flatMap fun z => [Ascii.comma] ++ p z) ++ rest) := by
    cases xs with
    | nil => exact hrest
    | cons z zs => exact stopsAt_cons.2 (by decide)
  have hothers : (many (token Ascii.comma >>= fun _ => r)).run
      ((xs.flatMap fun z => [Ascii.comma] ++ p z) ++ rest) = some (xs.map v, rest) := by
    apply run_many (P := StopsAt continuesNumber) _ _ _ hrest
    · rw [StateT.run_bind, hstop]
      rfl
    · intro z hz rest hrest
      rw [StateT.run_bind, List.append_assoc, reads_token (by decide)]
      exact hreads.2 z hz rest hrest
    · intro z _
      exact List.cons_ne_nil _ _
    · intro z _ rest
      exact stopsAt_cons.2 (by decide)
  unfold readSeparated
  rw [List.map_cons, List.map_cons, Bytes.join_cons, List.flatMap_map, List.append_assoc,
    StateT.run_bind, hreads.1 _ hbehind]
  show (many (token Ascii.comma >>= fun _ => r) >>= fun zs => pure (v y :: zs)).run _ = _
  rw [StateT.run_bind, hothers]
  rfl

/-- Whether a byte can close brackets. -/
def closes (b : UInt8) : Bool := b == Ascii.rightBracket || b == Ascii.rightBrace

theorem properties_of_closes : ∀ b, closes b = true →
    isBlank b = false ∧ startsValue b = false ∧ continuesNumber b = false ∧ Ascii.comma ≠ b :=
  forall_byte (by decide +kernel)

/-- Values between brackets are read one after the other. -/
theorem reads_readBetween (opening : UInt8) (hclosing : closes closing = true)
    (hstarts : ∀ x ∈ xs, StartsValue (p x)) (hreads : ∀ x ∈ xs, ReadsAhead r (p x) (v x)) :
    Reads (readBetween opening closing r)
      (opening :: Bytes.join [Ascii.comma] (xs.map p) ++ [closing]) (xs.map v) := by
  obtain ⟨hblank, hstart, hnumber, hcomma⟩ := properties_of_closes closing hclosing
  show Reads _ ([opening] ++ (Bytes.join [Ascii.comma] (xs.map p) ++ [closing])) _
  apply Reads.text
  cases xs with
  | nil =>
    apply Reads.orElse_left
    exact (reads_token hblank).bind (reads_pure [])
  | cons y xs =>
    apply Reads.orElse_right
    · intro rest
      have hstop : (token Ascii.comma).run (closing :: rest) = none :=
        rejects_token hblank hcomma [] rest
      have hend := reads_token hblank rest
      rw [List.append_assoc, List.singleton_append, StateT.run_bind,
        run_readSeparated hreads (stopsAt_cons.2 hnumber) hstop]
      show (token closing >>= fun _ => pure ((y :: xs).map v)).run (closing :: rest) = _
      rw [StateT.run_bind]
      rw [List.singleton_append] at hend
      rw [hend]
      rfl
    · -- the reader first tries for the closing bracket, with which no value starts
      have hfirst := (hstarts y List.mem_cons_self).rejects_token hstart
      rw [List.map_cons, Bytes.join_cons, List.append_assoc]
      exact (hfirst.append _).bind _

/-! ## What a text says -/

/-- Whether a text is that of a value, wherever it stands. It is on one line. -/
structure Denotes (depth : Nat) (t : Bytes) (v : Value) : Prop where
  starts : StartsValue t
  reads : ReadsAhead (readValue depth) t v
  printable : ∀ b ∈ t, Ascii.space ≤ b

variable {depth : Nat} {f : β → Value} {w : Value}

theorem Denotes.of_readHere (hb : startsValue b = true)
    (hprintable : ∀ c ∈ b :: t, Ascii.space ≤ c)
    (h : ReadsAhead (readHere (readValue depth)) (b :: t) w) : Denotes (depth + 1) (b :: t) w := by
  refine ⟨⟨b, t, rfl, hb⟩, fun rest hrest => ?_, hprintable⟩
  unfold readValue
  rw [StateT.run_bind, List.cons_append, run_blanks (isBlank_of_startsValue hb)]
  exact h rest hrest

theorem rejects_readString (hb : Ascii.quote ≠ b) (s : Bytes) : Rejects readString (b :: s) :=
  (rejects_text_cons hb s).bind _

theorem rejects_readBetween {opening : UInt8} (hb : opening ≠ b) (closing : UInt8)
    (r : TextReader α) (s : Bytes) : Rejects (readBetween opening closing r) (b :: s) :=
  (rejects_text_cons hb s).bind _

theorem space_le_of_mem_escape (b : UInt8) : ∀ c ∈ escape b, Ascii.space ≤ c := by
  have hall : ∀ b, (escape b).all (fun c => Ascii.space ≤ c) = true :=
    forall_byte (by decide +kernel)
  simpa using hall b

theorem space_le_of_mem_string (s : Bytes) : ∀ b ∈ string s, Ascii.space ≤ b := by
  intro b hb
  simp only [string, List.mem_append, List.mem_cons, List.mem_flatMap, List.not_mem_nil,
    or_false] at hb
  rcases hb with (rfl | ⟨c, -, hb⟩) | rfl
  · decide
  · exact space_le_of_mem_escape c b hb
  · decide

theorem space_le_of_mem_join {ts : List Bytes} (h : ∀ t ∈ ts, ∀ b ∈ t, Ascii.space ≤ b) :
    ∀ b ∈ Bytes.join [Ascii.comma] ts, Ascii.space ≤ b := by
  cases ts with
  | nil => exact fun b hb => absurd hb List.not_mem_nil
  | cons t ts =>
    rw [List.forall_mem_cons] at h
    intro b hb
    simp only [Bytes.join_cons, List.mem_append, List.mem_flatMap, List.mem_singleton] at hb
    rcases hb with hb | ⟨u, hu, rfl | hb⟩
    · exact h.1 b hb
    · decide
    · exact h.2 u hu b hb

/-- What stands between brackets is on one line if each part of it is. -/
theorem space_le_of_mem_brackets {opening closing : UInt8} {ts : List Bytes}
    (hopening : Ascii.space ≤ opening) (hclosing : Ascii.space ≤ closing)
    (h : ∀ t ∈ ts, ∀ b ∈ t, Ascii.space ≤ b) :
    ∀ b ∈ opening :: Bytes.join [Ascii.comma] ts ++ [closing], Ascii.space ≤ b := by
  intro b hb
  simp only [List.mem_append, List.mem_cons, List.not_mem_nil, or_false] at hb
  rcases hb with (rfl | hb) | rfl
  · exact hopening
  · exact space_le_of_mem_join h b hb
  · exact hclosing

theorem denotes_string (s : Bytes) : Denotes (depth + 1) (string s) (.string s) := by
  apply Denotes.of_readHere (by decide) (space_le_of_mem_string s)
  apply ReadsAhead.orElse_left
  exact (ReadsAhead.of_reads (reads_readString s)).map Value.string

theorem denotes_array {xs : List β} (h : ∀ x ∈ xs, Denotes depth (p x) (f x)) :
    Denotes (depth + 1) (array (xs.map p)) (.array (xs.map f)) := by
  have hstring : ∀ s, Rejects readString (Ascii.leftBracket :: s) :=
    rejects_readString (by decide)
  apply Denotes.of_readHere (by decide)
  · apply space_le_of_mem_brackets (by decide) (by decide)
    exact List.forall_mem_map.2 fun x hx => (h x hx).printable
  · apply ReadsAhead.orElse_right _ ((hstring _).map _)
    apply ReadsAhead.orElse_left
    apply ReadsAhead.map
    apply ReadsAhead.of_reads
    exact reads_readBetween _ (by decide) (fun x hx => (h x hx).starts) fun x hx => (h x hx).reads

/-- The text of a field whose key needs no escapes. -/
def fieldText (key value : Bytes) : Bytes :=
  Ascii.quote :: key ++ [Ascii.quote, Ascii.colon] ++ value

theorem readsAhead_readField {r : TextReader Value} {key value : Bytes}
    (hkey : key.flatMap escape = key) (h : ReadsAhead r value w) :
    ReadsAhead (readField r) (fieldText key value) (key, w) := by
  have htext : fieldText key value = string key ++ ([Ascii.colon] ++ value) := by
    simp [fieldText, string, hkey]
  have hfield : ReadsAhead (do let k ← readString; token Ascii.colon; let v ← r; return (k, v))
      (string key ++ ([Ascii.colon] ++ value)) (key, w) := by
    apply ReadsAhead.bind (reads_readString key)
    apply ReadsAhead.bind (reads_token (by decide))
    intro rest hrest
    rw [StateT.run_bind, h rest hrest]
    rfl
  intro rest hrest
  unfold readField
  rw [htext, StateT.run_bind]
  have hblanks : blanks.run (string key ++ ([Ascii.colon] ++ value) ++ rest) =
      some ((), string key ++ ([Ascii.colon] ++ value) ++ rest) := run_blanks (by decide) _
  rw [hblanks]
  exact hfield rest hrest

/-- An object, with the texts and the values of its fields. -/
theorem denotes_object (fields : List (Bytes × Bytes × Value))
    (hkeys : ∀ f ∈ fields, f.1.flatMap escape = f.1)
    (h : ∀ f ∈ fields, Denotes depth f.2.1 f.2.2) :
    Denotes (depth + 1) (object (fields.map fun f => (f.1, f.2.1)))
      (.object (fields.map fun f => (f.1, f.2.2))) := by
  have hstring : ∀ s, Rejects readString (Ascii.leftBrace :: s) :=
    rejects_readString (by decide)
  have harray : ∀ s, Rejects (readBetween Ascii.leftBracket Ascii.rightBracket (readValue depth))
      (Ascii.leftBrace :: s) := rejects_readBetween (by decide) _ _
  have htext : object (fields.map fun f => (f.1, f.2.1)) = Ascii.leftBrace ::
      Bytes.join [Ascii.comma] (fields.map fun f => fieldText f.1 f.2.1) ++ [Ascii.rightBrace] := by
    unfold object
    rw [List.map_map]
    rfl
  rw [htext]
  apply Denotes.of_readHere (by decide)
  · apply space_le_of_mem_brackets (by decide) (by decide)
    rw [List.forall_mem_map]
    intro f hf b hb
    have hkey := space_le_of_mem_string f.1
    rw [string, hkeys f hf] at hkey
    simp only [fieldText, List.mem_append, List.mem_cons, List.not_mem_nil, or_false] at hb hkey
    rcases hb with (hb | rfl | rfl) | hb
    · exact hkey b (.inl hb)
    · decide
    · decide
    · exact (h f hf).printable b hb
  · apply ReadsAhead.orElse_right _ ((hstring _).map _)
    apply ReadsAhead.orElse_right _ ((harray _).map _)
    apply ReadsAhead.orElse_left
    apply ReadsAhead.map
    apply ReadsAhead.of_reads
    apply reads_readBetween _ (by decide)
    · intro f _
      exact ⟨_, _, rfl, by decide⟩
    · intro f hf
      exact readsAhead_readField (hkeys f hf) (h f hf).reads

/-- What is no string, array or object is a number or a word. -/
theorem Denotes.of_scalar (hb : b ≠ Ascii.quote ∧ b ≠ Ascii.leftBracket ∧ b ≠ Ascii.leftBrace)
    (hstarts : startsValue b = true) (hprintable : ∀ c ∈ b :: t, Ascii.space ≤ c)
    (h : ReadsAhead (Value.number <$> readNumber <|> readWord "true" (.bool true) <|>
      readWord "false" (.bool false) <|> readWord "null" .null) (b :: t) w) :
    Denotes (depth + 1) (b :: t) w := by
  apply Denotes.of_readHere hstarts hprintable
  apply ReadsAhead.orElse_right _ ((rejects_readString hb.1.symm t).map _)
  apply ReadsAhead.orElse_right _ ((rejects_readBetween hb.2.1.symm _ _ t).map _)
  exact h.orElse_right ((rejects_readBetween hb.2.2.symm _ _ t).map _)

theorem denotes_bool (b : Bool) : Denotes (depth + 1) (bool b) (.bool b) := by
  cases b with
  | true =>
    have hnumber : Rejects readNumber (utf8 "true") := fun _ => rfl
    apply Denotes.of_scalar (b := 0x74) (by decide) (by decide) (by decide +kernel)
    apply ReadsAhead.orElse_right _ (hnumber.map _)
    apply ReadsAhead.orElse_left
    exact .of_reads (.last _ _)
  | false =>
    have hnumber : Rejects readNumber (utf8 "false") := fun _ => rfl
    have htrue : Rejects (readWord "true" (.bool true)) (utf8 "false") :=
      .text (by decide) (by decide)
    apply Denotes.of_scalar (b := 0x66) (by decide) (by decide) (by decide +kernel)
    apply ReadsAhead.orElse_right _ (hnumber.map _)
    apply ReadsAhead.orElse_right _ htrue
    apply ReadsAhead.orElse_left
    exact .of_reads (.last _ _)

theorem properties_of_isDigit : ∀ b, Ascii.isDigit b = true →
    (b ≠ Ascii.quote ∧ b ≠ Ascii.leftBracket ∧ b ≠ Ascii.leftBrace) ∧ startsValue b = true ∧
      Ascii.space ≤ b :=
  forall_byte (by decide +kernel)

theorem denotes_ofInt (i : Int) : Denotes (depth + 1) (Bytes.ofInt i) (.number (.ofInt i)) := by
  have hread := ((readsAhead_readNumber i).map Value.number).orElse_left
    (readWord "true" (.bool true) <|> readWord "false" (.bool false) <|> readWord "null" .null)
  have hdigits (n : Nat) (b : UInt8) (hb : b ∈ Bytes.ofNat n) :=
    properties_of_isDigit b (Bytes.isDigit_of_mem_ofNat hb)
  cases i with
  | ofNat n =>
    obtain ⟨b, digits, hn⟩ := List.exists_cons_of_ne_nil (Bytes.ofNat_ne_nil n)
    have hprintable : ∀ c ∈ b :: digits, Ascii.space ≤ c := hn ▸ fun c hc => (hdigits n c hc).2.2
    obtain ⟨hscalar, hstarts, -⟩ := hdigits n b (by simp [hn])
    rw [Bytes.ofInt, hn] at hread ⊢
    exact .of_scalar hscalar hstarts hprintable hread
  | negSucc n =>
    have hprintable : ∀ c ∈ Ascii.minus :: Bytes.ofNat (n + 1), Ascii.space ≤ c := by
      rw [List.forall_mem_cons]
      exact ⟨by decide, fun c hc => (hdigits (n + 1) c hc).2.2⟩
    exact .of_scalar (by decide) (by decide) hprintable hread

/-- A text that is one value is read as this value. -/
theorem Value.read_eq (h : Denotes t.length t w) : Value.read t = some w := by
  have hrun := h.reads [] (stopsAt_nil _)
  rw [List.append_nil] at hrun
  unfold Value.read
  rw [hrun]
  rfl

end Json

end Equate
