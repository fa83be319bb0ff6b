import Equate.Proofs.Emission.Section
import Equate.Proofs.Emission.Spelling
import Equate.Proofs.Node.Atom
/-!
# Identifiers in generated code

What code puts where an identifier belongs is made from names. It is an identifier if the names are:
that goes for companion functions, for look-up structures and for the components of a namespace
that is written with dots or colons. If the names have no byte that could end a comment or a
literal, neither has what is made from them. The bytes of symbols are harmless in this way.
-/

namespace Equate

/-! ## Identifiers -/

/-- Whether an identifier can go on with this byte: a letter, a digit or an underscore. -/
def isPlainByte (b : UInt8) : Bool := Ascii.isLetter b || Ascii.isDigit b || b == 0x5f

/-- Whether this is a letter or an underscore, with letters, digits and underscores behind it. -/
def isPlainIdentifier : Bytes → Bool
  | [] => false
  | b :: bs => (Ascii.isLetter b || b == 0x5f) && bs.all isPlainByte

theorem isPlainByte_of_mem {s : Bytes} (hs : isPlainIdentifier s = true) :
    ∀ b ∈ s, isPlainByte b = true := by
  cases s with
  | nil => cases hs
  | cons b bs =>
    rw [isPlainIdentifier, Bool.and_eq_true, List.all_eq_true] at hs
    rw [List.forall_mem_cons]
    refine ⟨?_, hs.2⟩
    unfold isPlainByte
    rw [Bool.or_right_comm, hs.1, Bool.true_or]

theorem isPlainIdentifier_append {s t : Bytes} (hs : isPlainIdentifier s = true)
    (ht : ∀ b ∈ t, isPlainByte b = true) : isPlainIdentifier (s ++ t) = true := by
  cases s with
  | nil => cases hs
  | cons b bs =>
    rw [isPlainIdentifier, Bool.and_eq_true] at hs
    rw [List.cons_append, isPlainIdentifier, List.all_append, hs.1, hs.2, List.all_eq_true.2 ht]
    rfl

theorem isPlainByte_toUpper {b : UInt8} (hb : isPlainByte b = true) :
    isPlainByte (Ascii.toUpper b) = true := by
  rcases Ascii.toUpper_cases b with hupper | heq
  · simp [isPlainByte, Ascii.isLetter, hupper]
  · rw [heq]
    exact hb

theorem isPlainIdentifier_companions {member : Bytes} (h : isPlainIdentifier member = true) :
    isPlainIdentifier (equalsCompanion member) = true ∧
      isPlainIdentifier (hashCompanion member) = true := by
  have hsuffix : ∀ b ∈ companionSuffix member, isPlainByte b = true :=
    forall_mem_companionSuffix isPlainByte (fun _ => isPlainByte_toUpper) (isPlainByte_of_mem h)
  exact ⟨isPlainIdentifier_append (by decide) hsuffix,
    isPlainIdentifier_append (by decide) hsuffix⟩

/-! ## Namespaces -/

/-- Identifiers with a dot or two colons between neighbours. -/
inductive IsPath : Bytes → Prop
  | identifier {n : Bytes} (hn : isPlainIdentifier n = true) : IsPath n
  | dot {n p : Bytes} (hn : isPlainIdentifier n = true) (hp : IsPath p) :
      IsPath (n ++ ([Ascii.dot] ++ p))
  | colons {n p : Bytes} (hn : isPlainIdentifier n = true) (hp : IsPath p) :
      IsPath (n ++ (utf8 "::" ++ p))

namespace Emission

theorem spelledNamespace_of_isPlainIdentifier {n : Bytes} (hn : isPlainIdentifier n = true) :
    spelledNamespace n = n ∧ Ascii.colon ∉ n := by
  have hbytes := isPlainByte_of_mem hn
  constructor
  · apply spelledNamespace_of_no_dot
    intro hdot
    exact absurd (hbytes _ hdot) (by decide)
  · intro hcolon
    exact absurd (hbytes _ hcolon) (by decide)

/-- The components of a path are its identifiers, with dots as with colons. -/
theorem isPlainIdentifier_of_mem_components {p : Bytes} (hp : IsPath p) :
    ∀ n ∈ components (spelledNamespace p), isPlainIdentifier n = true := by
  have hdot : spelledNamespace [Ascii.dot] = utf8 "::" := by decide
  have hcolons : spelledNamespace (utf8 "::") = utf8 "::" := by decide
  induction hp with
  | identifier hn =>
    obtain ⟨hspelled, hcolon⟩ := spelledNamespace_of_isPlainIdentifier hn
    rw [hspelled, components_of_colon_notMem hcolon, List.forall_mem_singleton]
    exact hn
  | dot hn _ ih =>
    obtain ⟨hspelled, hcolon⟩ := spelledNamespace_of_isPlainIdentifier hn
    rw [spelledNamespace_append, spelledNamespace_append, hspelled, hdot,
      components_append hcolon, List.forall_mem_cons]
    exact ⟨hn, ih⟩
  | colons hn _ ih =>
    obtain ⟨hspelled, hcolon⟩ := spelledNamespace_of_isPlainIdentifier hn
    rw [spelledNamespace_append, spelledNamespace_append, hspelled, hcolons,
      components_append hcolon, List.forall_mem_cons]
    exact ⟨hn, ih⟩

end Emission

/-! ## Comments and literals -/

/-- Whether a byte is visible and, in a comment as in a literal, stands for itself. -/
def isInert (b : UInt8) : Bool :=
  0x20 < b && b < 0x7f && b != Ascii.quote && b != Ascii.backslash

theorem isInert_of_isLetter_or_isDigit {b : UInt8}
    (hb : Ascii.isLetter b = true ∨ Ascii.isDigit b = true) : isInert b = true := by
  simp only [Ascii.isLetter, Ascii.isUpper, Ascii.isLower, Ascii.isDigit, isInert, Ascii.quote,
    Ascii.backslash, Bool.or_eq_true, Bool.and_eq_true, decide_eq_true_eq, bne_iff_ne, ne_eq,
    ← UInt8.toNat_inj, UInt8.lt_iff_toNat_lt, UInt8.le_iff_toNat_le, UInt8.reduceToNat] at hb ⊢
  omega

theorem isInert_of_continuesSymbol {b : UInt8} (hb : continuesSymbol b = true) :
    isInert b = true := by
  have hmarks : (utf8 "*!_?-+/<>=$%&").all isInert = true := by decide
  simp only [continuesSymbol, startsSymbol, Bool.or_eq_true, List.contains_iff_mem,
    beq_iff_eq] at hb
  rcases hb with ((((hletter | hmark) | hdigit) | rfl) | rfl) | rfl
  · exact isInert_of_isLetter_or_isDigit (.inl hletter)
  · exact List.all_eq_true.1 hmarks b hmark
  · exact isInert_of_isLetter_or_isDigit (.inr hdigit)
  all_goals rfl

theorem isInert_toUpper {b : UInt8} (hb : isInert b = true) : isInert (Ascii.toUpper b) = true := by
  rcases Ascii.toUpper_cases b with hupper | heq
  · apply isInert_of_isLetter_or_isDigit
    simp [Ascii.isLetter, hupper]
  · rw [heq]
    exact hb

theorem isInert_companions {member : Bytes} (h : ∀ b ∈ member, isInert b = true) :
    (∀ b ∈ equalsCompanion member, isInert b = true) ∧
      ∀ b ∈ hashCompanion member, isInert b = true := by
  have hequals : (utf8 "Equals_").all isInert = true := by decide
  have hhash : (utf8 "GetHashCode_").all isInert = true := by decide
  have hsuffix : ∀ b ∈ companionSuffix member, isInert b = true :=
    forall_mem_companionSuffix isInert (fun _ => isInert_toUpper) h
  exact ⟨List.forall_mem_append.2 ⟨List.all_eq_true.1 hequals, hsuffix⟩,
    List.forall_mem_append.2 ⟨List.all_eq_true.1 hhash, hsuffix⟩⟩

theorem Emission.isInert_of_mem_components {ns : Bytes} (h : ∀ b ∈ ns, isInert b = true) :
    ∀ n ∈ components (spelledNamespace ns), ∀ b ∈ n, isInert b = true := by
  have hcolons : (utf8 "::").all isInert = true := by decide
  intro n hn b hb
  obtain ⟨c, hc, hb⟩ := List.mem_flatMap.1 (subset_of_mem_components hn hb)
  split at hb
  · exact List.all_eq_true.1 hcolons b hb
  · rw [List.mem_singleton.1 hb]
    exact h c hc

end Equate
