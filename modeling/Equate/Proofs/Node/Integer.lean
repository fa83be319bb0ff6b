import Equate.Proofs.Node.Fault
import Equate.Proofs.Node.RoundTrip
/-!
# Integer literals

An integer literal is an optional sign in front of digits, of any number and with any zeros in
front. It is read as the integer that it denotes if 64 bits hold it, and is otherwise a fault at its
first byte: `IntegerLiteral.read_exact`. This holds of a literal on its own and of one inside of
brackets, at any depth, and every integer is read again from what is printed for it.
-/

namespace Equate

variable {origin : Nat} {pre t : Bytes}

/-- An optional sign and digits. -/
structure IntegerLiteral where
  sign : Bytes
  digits : Bytes
  isSignText : Numeral.IsSignText sign
  digits_ne_nil : digits ≠ []
  isDigit : ∀ b ∈ digits, Ascii.isDigit b = true

namespace IntegerLiteral

def text (l : IntegerLiteral) : Bytes := l.sign ++ l.digits

/-- The integer that the literal denotes. -/
def value (l : IntegerLiteral) : Int :=
  if l.sign = [Ascii.minus] then -(Bytes.toNat l.digits : Int) else Bytes.toNat l.digits

/-- Whether 64 bits hold the integer. -/
def Fits (l : IntegerLiteral) : Prop :=
  -0x8000000000000000 ≤ l.value ∧ l.value ≤ 0x7fffffffffffffff

instance (l : IntegerLiteral) : Decidable l.Fits := inferInstanceAs (Decidable (_ ∧ _))

def int64 (l : IntegerLiteral) : Int64 := Int64.ofInt l.value

/-- The node of the literal if it is read with its first byte at `p`. -/
def node (origin : Nat) (p : Position) (l : IntegerLiteral) : Node :=
  .int ⟨origin, some (.covering p l.text)⟩ l.int64

variable {l : IntegerLiteral}

theorem toInt_int64 (h : l.Fits) : l.int64.toInt = l.value :=
  Int64.toInt_ofInt_of_le h.1 (by have := h.2; omega)

/-! ## As numerals -/

/-- The literal as a numeral without fraction and exponent. -/
def numeral (l : IntegerLiteral) : Numeral := ⟨l.sign, l.digits, none, none⟩

theorem text_numeral (l : IntegerLiteral) : l.numeral.text = l.text := by
  simp [Numeral.text, numeral, text]

theorem wellFormed_numeral (l : IntegerLiteral) : l.numeral.WellFormed where
  sign := l.isSignText
  whole_ne_nil := l.digits_ne_nil
  whole := l.isDigit
  fraction := nofun
  exponent := nofun

theorem integer_numeral (l : IntegerLiteral) : l.numeral.integer = l.value := by
  simp [Numeral.integer, Numeral.isNegative, numeral, value]

theorem int64?_numeral (l : IntegerLiteral) :
    l.numeral.int64? = if l.Fits then some l.int64 else none := by
  have hfits : -0x8000000000000000 ≤ l.value ∧ l.value < 0x8000000000000000 ↔ l.Fits := by
    rw [Fits]
    omega
  simp only [Numeral.int64?, integer_numeral, hfits, int64]

theorem stopsAt_goesOn (l : IntegerLiteral) (ht : delimits t = true) :
    StopsAt l.numeral.goesOn t :=
  (delimits_iff.1 ht).mono fun _ => Numeral.continuesSymbol_of_goesOn

/-! ## Reading -/

theorem atom (h : l.Fits) (ht : delimits t = true) :
    Atom l.text (fun m => .int m l.int64) t := by
  rw [← text_numeral]
  exact .int l.wellFormed_numeral (l.stopsAt_goesOn ht) rfl (by rw [int64?_numeral, if_pos h])

theorem exists_startsAtom (l : IntegerLiteral) :
    ∃ b bs, l.text = b :: bs ∧ startsAtom b = true := by
  rw [← text_numeral]
  exact l.wellFormed_numeral.exists_startsAtom

/-- A literal that does not fit is scanned as a whole, but denotes no integer. -/
theorem readForm_of_not_fits (h : ¬l.Fits) (ht : delimits t = true) (p : Position) (fuel : Nat) :
    readForm origin (fuel + 1) ⟨l.text ++ t, p⟩ = .error ⟨.invalidNumber l.text, p⟩ := by
  have hrange : l.numeral.isOutOfRange = true := by
    have hinteger : l.numeral.isInteger = true := rfl
    rw [Numeral.isOutOfRange, if_pos hinteger, int64?_numeral, if_neg h]
    rfl
  rw [← text_numeral]
  exact readForm_of_isOutOfRange l.wellFormed_numeral (l.stopsAt_goesOn ht) hrange p fuel

/-- Whether the literal is read as the integer that it denotes: on its own, wherever the reader
comes to it in front of a delimiter, and as an item of a collection that can be read. -/
structure IsRead (l : IntegerLiteral) (origin : Nat) : Prop where
  value : l.int64.toInt = l.value
  alone : Node.read l.text origin = .ok (l.node origin .start)
  there {pre t : Bytes} (h : LeadsTo origin .start pre (l.text ++ t)) (ht : delimits t = true) :
    ReadsThere origin pre l.text t (l.node origin (Position.start.afterAll pre))
  item {bracket : Bracket} {s s' : Bytes} {vs vs' : List Node} {v : Node}
    (hs : Forms origin (Position.start.afterAll bracket.opening) s vs
      (l.text ++ (s' ++ [bracket.closing])))
    (hs' : Forms origin (Position.start.afterAll (bracket.opening ++ (s ++ l.text))) s' vs'
      [bracket.closing])
    (ht : delimits (s' ++ [bracket.closing]) = true)
    (hv : bracket.node? ⟨origin, some (.covering .start (bracket.around (s ++ (l.text ++ s'))))⟩
      (vs ++ l.node origin (Position.start.afterAll (bracket.opening ++ s)) :: vs') = some v) :
    Node.read (bracket.around (s ++ (l.text ++ s'))) origin = .ok v

/-- Whether the literal is a fault at its first byte, on its own and wherever the reader comes to it
in front of a delimiter. -/
structure IsRejected (l : IntegerLiteral) (origin : Nat) : Prop where
  alone : Node.read l.text origin = .error ⟨.invalidNumber l.text, .start⟩
  there {pre t : Bytes} (h : LeadsTo origin .start pre (l.text ++ t)) (ht : delimits t = true) :
    Node.read (pre ++ (l.text ++ t)) origin =
      .error ⟨.invalidNumber l.text, Position.start.afterAll pre⟩

theorem isRead_of_fits (h : l.Fits) (origin : Nat) : l.IsRead origin where
  value := toInt_int64 h
  alone := Node.read_of_form (.atom (atom h rfl))
  there := fun hpre ht => (atom h ht).readsThere hpre
  item := by
    intro bracket s s' vs vs' v hs hs' ht hv
    rw [Position.afterAll_append, Position.afterAll_append] at hs'
    rw [Position.afterAll_append] at hv
    rw [← List.append_assoc] at hs
    have hforms := hs.append ((Form.atom (atom h ht)).cons_forms hs')
    exact Node.read_of_form (.collection hforms hv)

theorem isRejected_of_not_fits (h : ¬l.Fits) (origin : Nat) : l.IsRejected origin := by
  have there {pre t : Bytes} (hpre : LeadsTo origin .start pre (l.text ++ t))
      (ht : delimits t = true) : Node.read (pre ++ (l.text ++ t)) origin =
        .error ⟨.invalidNumber l.text, Position.start.afterAll pre⟩ := by
    obtain ⟨b, bs, heq, hb⟩ := l.exists_startsAtom
    obtain ⟨m, k, hread, -⟩ := Node.read_of_leadsTo hpre
      ⟨b, bs ++ t, by rw [heq, List.cons_append], startsForm_of_startsAtom hb⟩
    rw [hread, readForm_of_not_fits h ht]
    rfl
  refine ⟨?_, there⟩
  have halone : Node.read ([] ++ (l.text ++ [])) origin = .error ⟨.invalidNumber l.text, .start⟩ :=
    there (.separator .nil) rfl
  rwa [List.nil_append, List.append_nil] at halone

/-- A literal is read as the integer that it denotes if 64 bits hold it, and is rejected if they do
not. What is printed for an integer is read as the integer. -/
theorem read_exact (l : IntegerLiteral) (origin : Nat) :
    (l.Fits → l.IsRead origin) ∧ (¬l.Fits → l.IsRejected origin) ∧
      ∀ m i, Node.read (Node.int m i).text origin =
        .ok (.int ⟨origin, some (.covering .start (Node.int m i).text)⟩ i) := by
  refine ⟨fun h => isRead_of_fits h origin, fun h => isRejected_of_not_fits h origin,
    fun m i => ?_⟩
  rw [Node.text, Node.write, List.append_nil]
  exact Node.read_of_form (.atom (Node.atom_ofInt i rfl))

/-- The least integer, with zeros in front. -/
def least : IntegerLiteral :=
  ⟨[Ascii.minus], utf8 "009223372036854775808", .inr ⟨_, rfl, rfl⟩, by decide, by decide +kernel⟩

/-- One more than the greatest integer. -/
def tooLarge : IntegerLiteral :=
  ⟨[], utf8 "9223372036854775808", .inl rfl, by decide, by decide +kernel⟩

theorem read_exact_limits :
    least.Fits ∧ least.int64 = -0x8000000000000000 ∧
      Node.read (utf8 "-009223372036854775808") = .ok (least.node 0 .start) ∧
      ReadsThere 0 (utf8 "[a (") (utf8 "-009223372036854775808") (utf8 ")]")
        (least.node 0 ⟨1, 5⟩) ∧
      ¬tooLarge.Fits ∧
      Node.read (utf8 "[a (9223372036854775808)]") =
        .error ⟨.invalidNumber (utf8 "9223372036854775808"), ⟨1, 5⟩⟩ ∧
      Node.read (Node.int .blank 17).text = .ok (.int ⟨0, some ⟨⟨1, 1⟩, ⟨1, 2⟩⟩⟩ 17) := by
  have hleast : least.Fits := by decide
  have hlarge : ¬tooLarge.Fits := by decide
  have hlist (t : Bytes) : LeadsTo 0 ⟨1, 4⟩ ([] ++ (Bracket.list.opening ++ ([] ++ []))) t :=
    .inside .nil .nil (.separator .nil)
  have hvector (t : Bytes) :
      LeadsTo 0 .start ([] ++ (Bracket.vector.opening ++ (utf8 "a " ++ utf8 "("))) t := by
    have hword : Atom (utf8 "a") (fun m => wordNode m (utf8 "a")) (utf8 " " ++ (utf8 "(" ++ t)) :=
      .word ⟨_, _, rfl, by decide⟩ (by decide +kernel) (by decide) rfl
    exact .inside .nil (.atom (s := utf8 " ") hword (.of_separator (.blank rfl .nil))) (hlist t)
  obtain ⟨hread, -, hprinted⟩ := read_exact least 0
  exact ⟨hleast, by decide, (hread hleast).alone, (hread hleast).there (hvector _) rfl, hlarge,
    ((read_exact tooLarge 0).2.1 hlarge).there (hvector _) rfl, hprinted .blank 17⟩

end IntegerLiteral

end Equate
