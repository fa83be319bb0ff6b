import Equate.Emission.Equality
/-!
# Readers of generated code

Readers take known texts, identifiers and truth values off the front of a text. `Reads` and
`Rejects` tell what a reader makes of a text in front of any other, and have a law for each way to
put readers together. So what a reader of generated code makes of it is found by going along the
reader.
-/

namespace Equate

/-! ## Identifiers -/

/-- Whether an identifier can hold this byte. The bytes beyond ASCII are parts of letters. -/
def isIdentifierByte (b : UInt8) : Bool :=
  Ascii.isLetter b || Ascii.isDigit b || b == 0x5f || 0x80 ≤ b

/-- Whether this is an identifier: such bytes, with no digit in front. -/
def isIdentifier (s : Bytes) : Bool :=
  s.all isIdentifierByte && s.head?.any fun b => !Ascii.isDigit b

/-- Whether an identifier in front of this text ends there. -/
def endsIdentifier (s : Bytes) : Bool := s.head?.any fun b => !isIdentifierByte b

theorem endsIdentifier_append {s : Bytes} (h : endsIdentifier s = true) (t : Bytes) :
    endsIdentifier (s ++ t) = true := by
  cases s with
  | nil => cases h
  | cons b bs => exact h

theorem isIdentifier_iff {s : Bytes} :
    isIdentifier s = true ↔ (∀ b ∈ s, isIdentifierByte b = true) ∧
      ∃ b bs, s = b :: bs ∧ Ascii.isDigit b = false := by
  unfold isIdentifier
  rw [Bool.and_eq_true, List.all_eq_true]
  cases s with
  | nil => simp
  | cons b bs => simp

theorem takeWhile_append_of_endsIdentifier {s t : Bytes}
    (hs : ∀ b ∈ s, isIdentifierByte b = true) (ht : endsIdentifier t = true) :
    (s ++ t).takeWhile isIdentifierByte = s ∧ (s ++ t).dropWhile isIdentifierByte = t := by
  cases t with
  | nil => cases ht
  | cons b bs =>
    have hb : isIdentifierByte b = false := by simpa [endsIdentifier] using ht
    rw [List.takeWhile_append_of_pos hs, List.dropWhile_append_of_pos hs,
      List.takeWhile_cons_of_neg (by simp [hb]), List.dropWhile_cons_of_neg (by simp [hb]),
      List.append_nil]
    exact ⟨rfl, rfl⟩

theorem Bytes.join_cons (separator piece : Bytes) (pieces : List Bytes) :
    join separator (piece :: pieces) =
      piece ++ pieces.flatMap fun p => separator ++ p := by
  unfold join
  induction pieces generalizing piece with
  | nil => simp [List.intercalate]
  | cons p ps ih =>
    rw [List.flatMap_cons, List.append_assoc, ← ih]
    simp [List.intercalate, List.intersperse]

/-! ## Readers -/

/-- Reads something off the front of a text. -/
abbrev TextReader := StateT Bytes Option

namespace TextReader

variable {α β : Type}

/-- Reads a text that is known. -/
def text (t : Bytes) : TextReader Unit := fun s =>
  if t.isPrefixOf s then some ((), s.drop t.length) else none

/-- Reads what stands in front of a byte. -/
def upTo (b : UInt8) : TextReader Bytes := fun s =>
  some (s.takeWhile (· != b), s.dropWhile (· != b))

/-- Reads the longest identifier. -/
def identifier : TextReader Bytes := fun s =>
  let word := s.takeWhile isIdentifierByte
  if isIdentifier word then some (word, s.dropWhile isIdentifierByte) else none

def boolean : TextReader Bool :=
  (do text "true"; return true) <|> (do text "false"; return false)

/-- Reads a text if it is there. -/
def optional (t : Bytes) : TextReader Unit := text t <|> pure ()

/-- What can be read one after the other, and what is left. -/
def readAll (r : TextReader α) (s : Bytes) : List α × Bytes :=
  match r.run s with
  | none => ([], s)
  | some (x, rest) =>
    if rest.length < s.length then
      let (xs, rest) := readAll r rest
      (x :: xs, rest)
    else ([], s)
termination_by s.length

def many (r : TextReader α) : TextReader (List α) := fun s => some (readAll r s)

/-! ## What readers make of a text -/

/-- Whether this text is read as `x`, whatever follows. -/
def Reads (r : TextReader α) (t : Bytes) (x : α) : Prop :=
  ∀ rest, r.run (t ++ rest) = some (x, rest)

/-- Whether nothing can be read where this text stands. -/
def Rejects (r : TextReader α) (t : Bytes) : Prop :=
  ∀ rest, r.run (t ++ rest) = none

variable {r q : TextReader α} {f : α → TextReader β} {t u : Bytes} {x : α} {y : β}

theorem reads_pure (x : α) : Reads (pure x) [] x :=
  fun _ => rfl

theorem Reads.bind (h : Reads r t x) (hf : Reads (f x) u y) : Reads (r >>= f) (t ++ u) y := by
  intro rest
  rw [StateT.run_bind, List.append_assoc, h]
  exact hf rest

theorem run_orElse (r q : TextReader α) (s : Bytes) :
    (r <|> q).run s = (r.run s <|> q.run s) := rfl

theorem Reads.orElse_left (h : Reads r t x) (q : TextReader α) : Reads (r <|> q) t x := by
  intro rest
  rw [run_orElse, h]
  rfl

theorem Reads.orElse_right (h : Reads q t x) (hr : Rejects r t) : Reads (r <|> q) t x := by
  intro rest
  rw [run_orElse, hr, h]
  rfl

theorem Rejects.bind (h : Rejects r t) (f : α → TextReader β) : Rejects (r >>= f) t := by
  intro rest
  rw [StateT.run_bind, h]
  rfl

theorem Rejects.map (h : Rejects r t) (g : α → β) : Rejects (g <$> r) t := by
  intro rest
  rw [StateT.run_map, h]
  rfl

theorem Rejects.orElse (hr : Rejects r t) (hq : Rejects q t) : Rejects (r <|> q) t := by
  intro rest
  rw [run_orElse, hr, hq]
  rfl

theorem Rejects.append (h : Rejects r t) (u : Bytes) : Rejects r (t ++ u) := by
  intro rest
  rw [List.append_assoc]
  exact h _

/-! ### Known texts -/

theorem run_text_append (t rest : Bytes) : (text t).run (t ++ rest) = some ((), rest) := by
  have hprefix : t.isPrefixOf (t ++ rest) = true :=
    List.isPrefixOf_iff_prefix.2 (List.prefix_append _ _)
  show (if _ then _ else _) = _
  rw [if_pos hprefix, List.drop_left]

theorem Reads.text {f : Unit → TextReader β} (h : Reads (f ()) u y) (t : Bytes) :
    Reads (TextReader.text t >>= f) (t ++ u) y :=
  Reads.bind (run_text_append t) h

theorem Reads.last (t : Bytes) (x : α) : Reads (TextReader.text t >>= fun _ => pure x) t x := by
  have h := Reads.text (f := fun _ => pure x) (reads_pure x) t
  rwa [List.append_nil] at h

/-- A text is not read where another one stands that differs from it early enough. -/
theorem rejects_text (h : ¬ t <+: u) (h' : ¬ u <+: t) : Rejects (text t) u := by
  intro rest
  have hprefix : ¬ t.isPrefixOf (u ++ rest) = true := by
    intro hprefix
    rw [List.isPrefixOf_iff_prefix] at hprefix
    rcases List.prefix_or_prefix_of_prefix hprefix (List.prefix_append u rest) with ht | hu
    · exact h ht
    · exact h' hu
  show (if _ then _ else _) = _
  rw [if_neg hprefix]

theorem Rejects.text {f : Unit → TextReader β} (h : ¬ t <+: u) (h' : ¬ u <+: t) :
    Rejects (TextReader.text t >>= f) u :=
  (rejects_text h h').bind f

/-- A text that may be there is read if it is, and passed over if it is not. -/
theorem Reads.optional {f : Unit → TextReader β} {present : Bool} (h : Reads (f ()) u y)
    (ht : present = false → Rejects (TextReader.text t) u) :
    Reads (TextReader.optional t >>= f) ((if present then t else []) ++ u) y := by
  intro rest
  rw [StateT.run_bind, List.append_assoc, TextReader.optional, run_orElse]
  cases present with
  | true =>
    rw [if_pos rfl, run_text_append]
    exact h rest
  | false =>
    rw [if_neg Bool.false_ne_true, List.nil_append, ht rfl]
    exact h rest

/-! ### Words -/

theorem Reads.upTo {f : Bytes → TextReader β} {b : UInt8} (h : Reads (f t) (b :: u) y)
    (ht : b ∉ t) : Reads (TextReader.upTo b >>= f) (t ++ b :: u) y := by
  have hbytes : ∀ a ∈ t, (a != b) = true := by
    intro a ha
    rw [bne_iff_ne]
    rintro rfl
    exact ht ha
  intro rest
  have hrun : (TextReader.upTo b).run (t ++ b :: (u ++ rest)) = some (t, b :: (u ++ rest)) := by
    show some (_, _) = _
    rw [List.takeWhile_append_of_pos hbytes, List.dropWhile_append_of_pos hbytes]
    simp
  rw [StateT.run_bind, List.append_assoc, List.cons_append, hrun]
  exact h rest

/-- An identifier is read in front of a text where it ends. -/
theorem Reads.identifier {f : Bytes → TextReader β} (h : Reads (f t) u y)
    (ht : isIdentifier t = true) (hu : endsIdentifier u = true) :
    Reads (TextReader.identifier >>= f) (t ++ u) y := by
  intro rest
  obtain ⟨htake, hdrop⟩ := takeWhile_append_of_endsIdentifier (isIdentifier_iff.1 ht).1
    (endsIdentifier_append hu rest)
  have hrun : TextReader.identifier.run (t ++ (u ++ rest)) = some (t, u ++ rest) := by
    show (if isIdentifier (List.takeWhile isIdentifierByte _) then some (_, _) else none) = _
    rw [htake, hdrop, if_pos ht]
  rw [StateT.run_bind, List.append_assoc, hrun]
  exact h rest

theorem rejects_text_of_isIdentifier (hu : isIdentifier u = true) (ht : endsIdentifier t = true) :
    Rejects (text t) u := by
  obtain ⟨hbytes, b, bs, rfl, -⟩ := isIdentifier_iff.1 hu
  cases t with
  | nil => cases ht
  | cons a as =>
    have hne : a ≠ b := by
      rintro rfl
      rw [endsIdentifier, List.head?_cons, Option.any_some, hbytes a List.mem_cons_self] at ht
      cases ht
    apply rejects_text
    · intro hprefix
      exact hne (List.cons_prefix_cons.1 hprefix).1
    · intro hprefix
      exact hne (List.cons_prefix_cons.1 hprefix).1.symm

theorem reads_boolean (b : Bool) : Reads boolean (Emission.boolLiteral b) b := by
  cases b with
  | true => exact (Reads.last _ _).orElse_left _
  | false =>
    apply (Reads.last _ _).orElse_right
    exact .text (by decide) (by decide)

/-! ### Repetitions -/

/-- What `P` asks of the text behind each piece is met by the next piece, and by what stands behind
the last one. -/
theorem run_many {P : Bytes → Prop} {p : β → Bytes} {v : β → α} {xs : List β}
    (hread : ∀ x ∈ xs, ∀ rest, P rest → r.run (p x ++ rest) = some (v x, rest))
    (hne : ∀ x ∈ xs, p x ≠ []) (hP : ∀ x ∈ xs, ∀ rest, P (p x ++ rest)) {rest : Bytes}
    (hrest : P rest) (hstop : r.run rest = none) :
    (many r).run (xs.flatMap p ++ rest) = some (xs.map v, rest) := by
  show some (readAll r (xs.flatMap p ++ rest)) = _
  congr 1
  induction xs with
  | nil =>
    rw [List.flatMap_nil, List.nil_append, readAll, hstop]
    rfl
  | cons x xs ih =>
    rw [List.forall_mem_cons] at hread hne hP
    have hlength : (xs.flatMap p ++ rest).length < (p x ++ (xs.flatMap p ++ rest)).length := by
      have hpositive := List.length_pos_iff.2 hne.1
      have hsum := @List.length_append _ (p x) (xs.flatMap p ++ rest)
      omega
    have hbehind : P (xs.flatMap p ++ rest) := by
      cases xs with
      | nil => exact hrest
      | cons z zs =>
        rw [List.flatMap_cons, List.append_assoc]
        exact hP.2 z List.mem_cons_self _
    rw [List.flatMap_cons, List.append_assoc, readAll, hread.1 _ hbehind]
    dsimp only
    rw [if_pos hlength, ih hread.2 hne.2 hP.2]
    rfl

/-- Texts are read one after the other up to one that cannot be read in their way. -/
theorem Reads.many {γ : Type} {f : List α → TextReader γ} {p : β → Bytes} {v : β → α} {xs : List β}
    {y : γ} (h : Reads (f (xs.map v)) u y) (hread : ∀ x ∈ xs, Reads r (p x) (v x))
    (hne : ∀ x ∈ xs, p x ≠ []) (hstop : Rejects r u) :
    Reads (TextReader.many r >>= f) (xs.flatMap p ++ u) y := by
  intro rest
  have hmany := run_many (P := fun _ => True) (fun x hx rest _ => hread x hx rest) hne
    (fun _ _ _ => trivial) trivial (hstop rest)
  rw [StateT.run_bind, List.append_assoc, hmany]
  exact h rest

end TextReader

end Equate
