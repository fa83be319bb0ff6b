import Equate.Proofs.Emission.Reading
/-!
# Reading statements

The lines that compare or hash a member are read back as the statements that they were made of.
The three kinds of a line differ in a text that stands at one place, so no line can be taken for one
of another kind.
-/

namespace Equate

open TextReader Emission

/-! ## Comparisons -/

namespace EqualsStatement

def member : EqualsStatement → Bytes
  | .sequence m _ _ | .companion _ _ m | .operator m => m

/-- The names in the text of a statement. -/
def names : EqualsStatement → List Bytes
  | .sequence m _ _ | .operator m => [m]
  | .companion type function m => [type, function, m]

def readSequence : TextReader EqualsStatement := do
  text "::eqgen::rt::sequence_equal(a."
  let m ← identifier
  text (utf8 ", b." ++ m ++ utf8 ", ")
  let orderMatters ← boolean
  text ", "
  let deep ← boolean
  text ")"
  return .sequence m orderMatters deep

def readOperator : TextReader EqualsStatement := do
  text "(a."
  let m ← identifier
  text (utf8 " == b." ++ m ++ utf8 ")")
  return .operator m

def readCompanion : TextReader EqualsStatement := do
  let type ← identifier
  text "::"
  let function ← identifier
  text "(a."
  let m ← identifier
  text (utf8 ", b." ++ m ++ utf8 ")")
  return .companion type function m

def readComparison : TextReader EqualsStatement :=
  readSequence <|> (readOperator <|> readCompanion)

/-- Reads a line that returns if two members differ. -/
def read : TextReader EqualsStatement := do
  text "    if (!"
  let statement ← readComparison
  text (line [utf8 ") return false;"])
  return statement

theorem equalsLine_ne_nil (s : EqualsStatement) : equalsLine s ≠ [] := by
  cases s <;> simp [equalsLine, line]

theorem reads_readSequence {m : Bytes} (hm : isIdentifier m = true) (orderMatters deep : Bool) :
    Reads readSequence (utf8 "::eqgen::rt::sequence_equal(a." ++ (m ++
      (utf8 ", b." ++ m ++ utf8 ", " ++ (boolLiteral orderMatters ++ (utf8 ", " ++
        (boolLiteral deep ++ utf8 ")")))))) (.sequence m orderMatters deep) := by
  have hcomma : endsIdentifier (utf8 ", b.") = true := by decide
  apply Reads.text
  apply Reads.identifier _ hm (by simp [endsIdentifier_append, hcomma])
  apply Reads.text
  apply (reads_boolean orderMatters).bind
  apply Reads.text
  apply (reads_boolean deep).bind
  apply Reads.last

theorem reads_readOperator {m : Bytes} (hm : isIdentifier m = true) :
    Reads readOperator (utf8 "(a." ++ (m ++ (utf8 " == b." ++ m ++ utf8 ")"))) (.operator m) := by
  have hspace : endsIdentifier (utf8 " == b.") = true := by decide
  apply Reads.text
  apply Reads.identifier _ hm (by simp [endsIdentifier_append, hspace])
  apply Reads.last

theorem reads_readCompanion {type function m : Bytes} (htype : isIdentifier type = true)
    (hfunction : isIdentifier function = true) (hm : isIdentifier m = true) :
    Reads readCompanion (type ++ (utf8 "::" ++ (function ++ (utf8 "(a." ++ (m ++
      (utf8 ", b." ++ m ++ utf8 ")")))))) (.companion type function m) := by
  have hcolons : endsIdentifier (utf8 "::") = true := by decide
  have hparen : endsIdentifier (utf8 "(a.") = true := by decide
  have hcomma : endsIdentifier (utf8 ", b.") = true := by decide
  apply Reads.identifier _ htype (by simp [endsIdentifier_append, hcolons])
  apply Reads.text
  apply Reads.identifier _ hfunction (by simp [endsIdentifier_append, hparen])
  apply Reads.text
  apply Reads.identifier _ hm (by simp [endsIdentifier_append, hcomma])
  apply Reads.last

theorem reads_of_comparison {t : Bytes} {s : EqualsStatement} (h : Reads readComparison t s) :
    Reads read (utf8 "    if (!" ++ (t ++ line [utf8 ") return false;"])) s := by
  apply Reads.text
  apply h.bind
  apply Reads.last

theorem reads_equalsLine {s : EqualsStatement} (hs : ∀ n ∈ s.names, isIdentifier n = true) :
    Reads read (equalsLine s) s := by
  -- the parenthesis in front of the last one belongs to the comparison
  have hclose : utf8 ")) return false;" = utf8 ")" ++ utf8 ") return false;" := by decide
  cases s with
  | sequence m orderMatters deep =>
    have hm : isIdentifier m = true := hs m List.mem_cons_self
    have hopen : utf8 "    if (!::eqgen::rt::sequence_equal(a." =
        utf8 "    if (!" ++ utf8 "::eqgen::rt::sequence_equal(a." := by decide
    have h := reads_of_comparison ((reads_readSequence hm orderMatters deep).orElse_left _)
    simpa [equalsLine, line, hopen, hclose] using h
  | operator m =>
    have hm : isIdentifier m = true := hs m List.mem_cons_self
    have hopen : utf8 "    if (!(a." = utf8 "    if (!" ++ utf8 "(a." := by decide
    have hsequence : Rejects readSequence (utf8 "(a.") := .text (by decide) (by decide)
    have h := reads_of_comparison
      (((reads_readOperator hm).orElse_left _).orElse_right (hsequence.append _))
    simpa [equalsLine, line, hopen, hclose] using h
  | companion type function m =>
    have htype : isIdentifier type = true := hs type (by simp [names])
    have hfunction : isIdentifier function = true := hs function (by simp [names])
    have hm : isIdentifier m = true := hs m (by simp [names])
    have hsequence : Rejects readSequence type := by
      apply Rejects.bind
      exact rejects_text_of_isIdentifier htype (by decide)
    have hoperator : Rejects readOperator type := by
      apply Rejects.bind
      exact rejects_text_of_isIdentifier htype (by decide)
    have h := reads_of_comparison (((reads_readCompanion htype hfunction hm).orElse_right
      (hoperator.append _)).orElse_right (hsequence.append _))
    simpa [equalsLine, line, hclose] using h

theorem rejects_read_return : Rejects read (utf8 "    return true;\n\x7d\n\n") :=
  .text (by decide) (by decide)

end EqualsStatement

/-! ## Hashes -/

namespace HashStatement

def member : HashStatement → Bytes
  | .sequence m _ _ | .companion _ _ m | .value m => m

/-- The names in the text of a statement. -/
def names : HashStatement → List Bytes
  | .sequence m _ _ | .value m => [m]
  | .companion type function m => [type, function, m]

def readSequence : TextReader HashStatement := do
  text "    ::eqgen::rt::add_sequence_hash(h, v."
  let m ← identifier
  text ", "
  let orderMatters ← boolean
  text ", "
  let deep ← boolean
  text (line [utf8 ");"])
  return .sequence m orderMatters deep

def readCompanion : TextReader HashStatement := do
  text "    h.add(static_cast<std::uint64_t>("
  let type ← identifier
  text "::"
  let function ← identifier
  text "(v."
  let m ← identifier
  text (line [utf8 ")));"])
  return .companion type function m

def readValue : TextReader HashStatement := do
  text "    h.add(::eqgen::rt::hash_value(v."
  let m ← identifier
  text (line [utf8 "));"])
  return .value m

/-- Reads a line that adds a member to the hash. -/
def read : TextReader HashStatement := readSequence <|> (readCompanion <|> readValue)

theorem hashLine_ne_nil (s : HashStatement) : hashLine s ≠ [] := by
  cases s <;> simp [hashLine, line]

theorem reads_readSequence {m : Bytes} (hm : isIdentifier m = true) (orderMatters deep : Bool) :
    Reads readSequence (utf8 "    ::eqgen::rt::add_sequence_hash(h, v." ++ (m ++ (utf8 ", " ++
      (boolLiteral orderMatters ++ (utf8 ", " ++ (boolLiteral deep ++ line [utf8 ");"]))))))
      (.sequence m orderMatters deep) := by
  have hcomma : endsIdentifier (utf8 ", ") = true := by decide
  apply Reads.text
  apply Reads.identifier _ hm (by simp [endsIdentifier_append, hcomma])
  apply Reads.text
  apply (reads_boolean orderMatters).bind
  apply Reads.text
  apply (reads_boolean deep).bind
  apply Reads.last

theorem reads_readCompanion {type function m : Bytes} (htype : isIdentifier type = true)
    (hfunction : isIdentifier function = true) (hm : isIdentifier m = true) :
    Reads readCompanion (utf8 "    h.add(static_cast<std::uint64_t>(" ++ (type ++ (utf8 "::" ++
      (function ++ (utf8 "(v." ++ (m ++ line [utf8 ")));"])))))) (.companion type function m) := by
  have hcolons : endsIdentifier (utf8 "::") = true := by decide
  have hparen : endsIdentifier (utf8 "(v.") = true := by decide
  have hclose : endsIdentifier (line [utf8 ")));"]) = true := by decide
  apply Reads.text
  apply Reads.identifier _ htype (by simp [endsIdentifier_append, hcolons])
  apply Reads.text
  apply Reads.identifier _ hfunction (by simp [endsIdentifier_append, hparen])
  apply Reads.text
  apply Reads.identifier _ hm hclose
  apply Reads.last

theorem reads_readValue {m : Bytes} (hm : isIdentifier m = true) :
    Reads readValue (utf8 "    h.add(::eqgen::rt::hash_value(v." ++ (m ++ line [utf8 "));"]))
      (.value m) := by
  have hclose : endsIdentifier (line [utf8 "));"]) = true := by decide
  apply Reads.text
  apply Reads.identifier _ hm hclose
  apply Reads.last

theorem reads_hashLine {s : HashStatement} (hs : ∀ n ∈ s.names, isIdentifier n = true) :
    Reads read (hashLine s) s := by
  cases s with
  | sequence m orderMatters deep =>
    have hm : isIdentifier m = true := hs m List.mem_cons_self
    have h : Reads read _ (.sequence m orderMatters deep) :=
      (reads_readSequence hm orderMatters deep).orElse_left _
    simpa [hashLine, line] using h
  | companion type function m =>
    have htype : isIdentifier type = true := hs type (by simp [names])
    have hfunction : isIdentifier function = true := hs function (by simp [names])
    have hm : isIdentifier m = true := hs m (by simp [names])
    have hsequence : Rejects readSequence (utf8 "    h.add(static_cast<std::uint64_t>(") :=
      .text (by decide) (by decide)
    have h : Reads read _ (.companion type function m) :=
      ((reads_readCompanion htype hfunction hm).orElse_left _).orElse_right (hsequence.append _)
    simpa [hashLine, line] using h
  | value m =>
    have hm : isIdentifier m = true := hs m List.mem_cons_self
    have hsequence : Rejects readSequence (utf8 "    h.add(::eqgen::rt::hash_value(v.") :=
      .text (by decide) (by decide)
    have hcompanion : Rejects readCompanion (utf8 "    h.add(::eqgen::rt::hash_value(v.") :=
      .text (by decide) (by decide)
    have h : Reads read _ (.value m) :=
      ((reads_readValue hm).orElse_right (hcompanion.append _)).orElse_right (hsequence.append _)
    simpa [hashLine, line] using h

theorem rejects_read_return : Rejects read (utf8 "    return h.finish();\n\x7d\n\n") := by
  apply Rejects.orElse
  · exact .text (by decide) (by decide)
  apply Rejects.orElse
  · exact .text (by decide) (by decide)
  · exact .text (by decide) (by decide)

end HashStatement

end Equate
