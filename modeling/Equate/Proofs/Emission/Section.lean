import Equate.Proofs.Emission.Statements
import Equate.Proofs.Grouping
import Equate.Proofs.Node.Lexeme
/-!
# Reading the section of a contract

The section of a contract is read for its type: the groups of the comment, and the statements of
both functions in their order. What is read is what the contract makes of its entries, one by one
(`Contract.run_readSection`), as long as the type and the members have identifiers for names.
-/

namespace Equate

open TextReader Emission

/-! ## The comment -/

namespace Emission

theorem line_cons (p : Bytes) (ps : List Bytes) : line (p :: ps) = p ++ line ps := by
  simp [line]

/-- Reads a member with what is told of its strategy. -/
def readSummary : TextReader Bytes := do
  let m ← identifier
  text " ("
  let _ ← upTo Ascii.rightParen
  text ")"
  return m

/-- Reads the members that share a place in the evaluation order. -/
def readGroup : TextReader (Bytes × List Bytes) := do
  text "//   order "
  let order ← upTo Ascii.colon
  text ": "
  let first ← readSummary
  let others ← many (do text ", "; readSummary)
  text (line [])
  return (order, first :: others)

/-- What the comment tells of a strategy. -/
def strategyText : Strategy → Bytes
  | .include _ => "include"
  | .ignore => "ignore"
  | .sequence _ orderMatters deep => utf8 "sequence" ++
      ((if orderMatters then utf8 ", ordered" else utf8 ", unordered") ++
        (if deep then utf8 ", deep" else utf8 ", identity"))
  | .custom _ => "custom"

theorem rightParen_notMem_strategyText (s : Strategy) : Ascii.rightParen ∉ strategyText s := by
  have hsequence (orderMatters deep : Bool) :
      Ascii.rightParen ∉ strategyText (.sequence none orderMatters deep) := by
    revert orderMatters deep
    decide
  have hothers : ∀ name ∈ ["include", "ignore", "custom"], Ascii.rightParen ∉ utf8 name := by
    decide
  rcases s with _ | _ | ⟨_, orderMatters, deep⟩ | _
  · exact hothers _ (by simp)
  · exact hothers _ (by simp)
  · exact hsequence orderMatters deep
  · exact hothers _ (by simp)

theorem summary_eq (e : ContractEntry) : e.summary =
    e.member.name ++ (utf8 " (" ++ (strategyText e.strategy ++ Ascii.rightParen :: [])) := by
  have hclose : utf8 ")" = [Ascii.rightParen] := by decide
  unfold ContractEntry.summary
  cases e.strategy <;> simp [strategyText, Strategy.name, hclose]

theorem reads_summary {e : ContractEntry} (hname : isIdentifier e.member.name = true) :
    Reads readSummary e.summary e.member.name := by
  have hparen : endsIdentifier (utf8 " (") = true := by decide
  rw [summary_eq]
  apply Reads.identifier _ hname (by simp [endsIdentifier_append, hparen])
  apply Reads.text
  apply Reads.upTo _ (rightParen_notMem_strategyText e.strategy)
  apply Reads.last

theorem colon_notMem_ofInt (i : Int) : Ascii.colon ∉ Bytes.ofInt i := by
  have hdigits (n : Nat) : Ascii.colon ∉ Bytes.ofNat n := by
    intro h
    have hdigit := Bytes.isDigit_of_mem_ofNat h
    revert hdigit
    decide
  cases i with
  | ofNat n => exact hdigits n
  | negSucc n =>
    intro h
    rcases List.mem_cons.1 h with h | h
    · cases h
    · exact hdigits _ h

/-- The line of a group. -/
def groupLine (g : Int × List ContractEntry) : Bytes :=
  line [utf8 "//   order ", Bytes.ofInt g.1, utf8 ": ",
    Bytes.join ", " (g.2.map ContractEntry.summary)]

theorem groupLine_ne_nil (g : Int × List ContractEntry) : groupLine g ≠ [] := by
  simp [groupLine, line]

theorem reads_groupLine {g : Int × List ContractEntry} (hne : g.2 ≠ [])
    (hnames : ∀ e ∈ g.2, isIdentifier e.member.name = true) :
    Reads readGroup (groupLine g) (Bytes.ofInt g.1, g.2.map fun e => e.member.name) := by
  obtain ⟨order, entries⟩ := g
  obtain ⟨e, es, rfl⟩ := List.exists_cons_of_ne_nil hne
  have hnewline : Rejects (do text ", "; readSummary) (line []) := .text (by decide) (by decide)
  have hcolon : utf8 ": " = Ascii.colon :: utf8 " " := by decide
  have h : Reads readGroup (utf8 "//   order " ++ (Bytes.ofInt order ++ (utf8 ": " ++ (e.summary ++
      ((es.flatMap fun e => utf8 ", " ++ e.summary) ++ line [])))))
      (Bytes.ofInt order, e.member.name :: es.map fun e => e.member.name) := by
    apply Reads.text
    rw [hcolon, List.cons_append]
    apply Reads.upTo _ (colon_notMem_ofInt order)
    rw [← List.cons_append, ← hcolon]
    apply Reads.text
    apply (reads_summary (hnames e List.mem_cons_self)).bind
    refine Reads.many (v := fun e => e.member.name) ?_ ?_ ?_ hnewline
    · apply Reads.last
    · intro e' he'
      apply Reads.text
      exact reads_summary (hnames e' (List.mem_cons_of_mem _ he'))
    · intro e' _ hnil
      have hcomma : utf8 ", " ≠ [] := by decide
      exact hcomma (List.append_eq_nil_iff.1 hnil).1
  simpa [groupLine, line, Bytes.join_cons, List.flatMap_map] using h

/-! ## Sections -/

/-- What the section of a contract says. -/
structure SectionReading where
  /-- The places of the evaluation order, each with its members. -/
  groups : List (Bytes × List Bytes)
  equals : List EqualsStatement
  hashes : List HashStatement
  deriving DecidableEq, Repr

/-- Reads the section for a type up to the end of the function that hashes. -/
def readSection (ns type : Bytes) : TextReader SectionReading := do
  text ([Ascii.newline] ++ utf8 "// ---- " ++ spelledName ns type)
  optional " (wrapper)"
  text (line [utf8 " ----"])
  text (line [utf8 "// Evaluation order:"])
  optional (line [utf8 "//   (no members; equality is type identity)"])
  let groups ← many readGroup
  text (openNamespace ns)
  text (line [utf8 "inline bool equals_core(const ", type, utf8 "& a, const ", type, utf8 "& b)"])
  text "\x7b\n    if (typeid(a) != typeid(b)) return false;\n"
  let equals ← many EqualsStatement.read
  text "    return true;\n\x7d\n\n"
  text (line [utf8 "inline std::uint64_t hash_core(const ", type, utf8 "& v)"])
  text "\x7b\n"
  text (line [utf8 "    ::eqgen::rt::hash_builder h(",
    wordLiteral (fnv1a (spelledName ns type)), utf8 ");"])
  let hashes ← many HashStatement.read
  text "    return h.finish();\n\x7d\n\n"
  return ⟨groups, equals, hashes⟩

end Emission

/-! ### Names of companion functions -/

theorem Ascii.toUpper_cases (b : UInt8) : isUpper (toUpper b) = true ∨ toUpper b = b := by
  unfold toUpper
  split
  · rename_i hlower
    left
    simp only [isLower, isUpper, Bool.and_eq_true, decide_eq_true_eq, UInt8.le_iff_toNat_le,
      UInt8.toNat_sub, UInt8.reduceToNat] at hlower ⊢
    omega
  · exact .inr rfl

theorem isIdentifierByte_toUpper {b : UInt8} (hb : isIdentifierByte b = true) :
    isIdentifierByte (Ascii.toUpper b) = true := by
  rcases Ascii.toUpper_cases b with hupper | heq
  · simp [isIdentifierByte, Ascii.isLetter, hupper]
  · rw [heq]
    exact hb

/-- A suffix is the name itself, or an end of it with its first byte in upper case. -/
theorem companionSuffix_cases (name : Bytes) :
    companionSuffix name = name ∨
      ∃ b bs, (b :: bs).Sublist name ∧ companionSuffix name = Ascii.toUpper b :: bs := by
  unfold companionSuffix
  dsimp only
  split
  · exact .inl rfl
  · rename_i b bs hrest
    split
    · exact .inl rfl
    · right
      refine ⟨b, bs, ?_, rfl⟩
      rw [← hrest]
      split
      · exact List.sublist_cons_self _ _
      · exact (List.sublist_cons_self _ _).trans (List.sublist_cons_self _ _)
      · exact List.Sublist.refl _

/-- Bytes of a suffix are bytes of the name, one of them in upper case. -/
theorem forall_mem_companionSuffix (p : UInt8 → Bool)
    (hupper : ∀ b, p b = true → p (Ascii.toUpper b) = true) {name : Bytes}
    (hname : ∀ b ∈ name, p b = true) : ∀ b ∈ companionSuffix name, p b = true := by
  rcases companionSuffix_cases name with heq | ⟨a, as, hsub, heq⟩
  · rw [heq]
    exact hname
  · rw [heq, List.forall_mem_cons]
    refine ⟨hupper a (hname a (hsub.subset List.mem_cons_self)), fun b hb => ?_⟩
    exact hname b (hsub.subset (List.mem_cons_of_mem _ hb))

theorem isIdentifierByte_of_mem_companionSuffix {name : Bytes} (hname : isIdentifier name = true)
    {b : UInt8} (hb : b ∈ companionSuffix name) : isIdentifierByte b = true :=
  forall_mem_companionSuffix isIdentifierByte (fun _ => isIdentifierByte_toUpper)
    (isIdentifier_iff.1 hname).1 b hb

theorem isIdentifier_append {s t : Bytes} (hs : isIdentifier s = true)
    (ht : ∀ b ∈ t, isIdentifierByte b = true) : isIdentifier (s ++ t) = true := by
  obtain ⟨hbytes, b, bs, rfl, hdigit⟩ := isIdentifier_iff.1 hs
  refine isIdentifier_iff.2 ⟨?_, b, bs ++ t, rfl, hdigit⟩
  intro a ha
  rcases List.mem_append.1 ha with ha | ha
  · exact hbytes a ha
  · exact ht a ha

theorem isIdentifier_equalsCompanion {name : Bytes} (hname : isIdentifier name = true) :
    isIdentifier (equalsCompanion name) = true :=
  isIdentifier_append (by decide) fun _ => isIdentifierByte_of_mem_companionSuffix hname

theorem isIdentifier_hashCompanion {name : Bytes} (hname : isIdentifier name = true) :
    isIdentifier (hashCompanion name) = true :=
  isIdentifier_append (by decide) fun _ => isIdentifierByte_of_mem_companionSuffix hname

namespace ContractEntry

variable {type : Bytes} {e : ContractEntry}

theorem isIdentifier_names_equalsStatement (htype : isIdentifier type = true)
    (hname : isIdentifier e.member.name = true) :
    ∀ n ∈ (e.equalsStatement type).names, isIdentifier n = true := by
  have hcompanion := isIdentifier_equalsCompanion hname
  unfold equalsStatement
  cases e.strategy <;> simp [EqualsStatement.names, *]

theorem isIdentifier_names_hashStatement (htype : isIdentifier type = true)
    (hname : isIdentifier e.member.name = true) :
    ∀ n ∈ (e.hashStatement type).names, isIdentifier n = true := by
  have hcompanion := isIdentifier_hashCompanion hname
  have hplain : ∀ n ∈ (if e.member.type.isSequence
      then HashStatement.sequence e.member.name true true
      else .value e.member.name).names, isIdentifier n = true := by
    split <;> simp [HashStatement.names, hname]
  unfold hashStatement
  cases e.strategy with
  | sequence | custom => simp [HashStatement.names, *]
  | _ => exact hplain

end ContractEntry

/-! ### The reading of a contract -/

namespace Contract

/-- The groups of the evaluation order. -/
def groups (c : Contract) : List (Int × List ContractEntry) :=
  groupByKey (fun e => e.strategy.order) c.entries

/-- What the section of a contract has to say. -/
def sectionReading (c : Contract) : SectionReading where
  groups := c.groups.map fun g => (Bytes.ofInt g.1, g.2.map fun e => e.member.name)
  equals := c.entries.map fun e => e.equalsStatement c.typeName
  hashes := c.entries.map fun e => e.hashStatement c.typeName

/-- The section up to the operators, in the pieces that are read. -/
def coreText (c : Contract) : Bytes :=
  ([Ascii.newline] ++ utf8 "// ---- " ++ spelledName c.ns c.typeName) ++
  ((if c.wrapper then utf8 " (wrapper)" else []) ++
  (line [utf8 " ----"] ++
  (line [utf8 "// Evaluation order:"] ++
  ((if c.groups.isEmpty then line [utf8 "//   (no members; equality is type identity)"] else []) ++
  (c.groups.flatMap groupLine ++
  (openNamespace c.ns ++
  (line [utf8 "inline bool equals_core(const ", c.typeName, utf8 "& a, const ", c.typeName,
    utf8 "& b)"] ++
  (utf8 "\x7b\n    if (typeid(a) != typeid(b)) return false;\n" ++
  ((c.entries.flatMap fun e => equalsLine (e.equalsStatement c.typeName)) ++
  (utf8 "    return true;\n\x7d\n\n" ++
  (line [utf8 "inline std::uint64_t hash_core(const ", c.typeName, utf8 "& v)"] ++
  (utf8 "\x7b\n" ++
  (line [utf8 "    ::eqgen::rt::hash_builder h(",
    wordLiteral (fnv1a (spelledName c.ns c.typeName)), utf8 ");"] ++
  ((c.entries.flatMap fun e => hashLine (e.hashStatement c.typeName)) ++
  utf8 "    return h.finish();\n\x7d\n\n"))))))))))))))

theorem orderComment_eq (c : Contract) :
    orderComment c =
      line [utf8 "// Evaluation order:"] ++
      ((if c.groups.isEmpty then line [utf8 "//   (no members; equality is type identity)"]
        else []) ++ c.groups.flatMap groupLine) := by
  unfold orderComment
  dsimp only
  rw [List.append_assoc]
  rfl

theorem code_eq_coreText_append (c : Contract) :
    c.code = c.coreText ++ (operators c.typeName ++ (closeNamespace c.ns ++ standardHash c)) := by
  simp [code, coreText, orderComment_eq, equalsFunction, hashFunction, line]

/-- A group has members, and they are among those of the contract. -/
theorem mem_groups {c : Contract} {g : Int × List ContractEntry} (hg : g ∈ c.groups) :
    g.2 ≠ [] ∧ ∀ e ∈ g.2, e ∈ c.entries := by
  obtain ⟨ks, -, hks, heq⟩ := groupByKey_eq (fun e : ContractEntry => e.strategy.order) c.entries
  unfold groups at hg
  rw [heq] at hg
  obtain ⟨k, hk, rfl⟩ := List.mem_map.1 hg
  constructor
  · obtain ⟨e, he, hkey⟩ := (hks k).1 hk
    apply List.ne_nil_of_mem (a := e)
    rw [List.mem_filter]
    exact ⟨he, beq_iff_eq.2 hkey⟩
  · intro e he
    exact (List.mem_filter.1 he).1

/-- What follows the comment belongs to no comment. -/
theorem rejects_text_openNamespace (ns : Bytes) {p t : Bytes}
    (h : ¬ p <+: utf8 "namespace " ∧ ¬ utf8 "namespace " <+: p) (ht : Rejects (text p) t) :
    Rejects (text p) (openNamespace ns ++ t) := by
  unfold openNamespace
  split
  · exact ht
  · rw [List.append_assoc, List.append_assoc]
    exact (rejects_text h.1 h.2).append _

theorem reads_coreText {c : Contract} (htype : isIdentifier c.typeName = true)
    (hmembers : ∀ e ∈ c.entries, isIdentifier e.member.name = true) :
    Reads (readSection c.ns c.typeName) c.coreText c.sectionReading := by
  have hdashes : Rejects (text " (wrapper)") (line [utf8 " ----"]) :=
    rejects_text (by decide) (by decide)
  have hlines : ∀ g ∈ c.groups, Reads readGroup (groupLine g)
      (Bytes.ofInt g.1, g.2.map fun e => e.member.name) := by
    intro g hg
    obtain ⟨hne, hmem⟩ := mem_groups hg
    exact reads_groupLine hne fun e he => hmembers e (hmem e he)
  have hequals : ∀ e ∈ c.entries, Reads EqualsStatement.read
      (equalsLine (e.equalsStatement c.typeName)) (e.equalsStatement c.typeName) := by
    intro e he
    apply EqualsStatement.reads_equalsLine
    exact ContractEntry.isIdentifier_names_equalsStatement htype (hmembers e he)
  have hhashes : ∀ e ∈ c.entries, Reads HashStatement.read
      (hashLine (e.hashStatement c.typeName)) (e.hashStatement c.typeName) := by
    intro e he
    apply HashStatement.reads_hashLine
    exact ContractEntry.isIdentifier_names_hashStatement htype (hmembers e he)
  unfold coreText
  apply Reads.text
  apply Reads.optional _ fun _ => hdashes.append _
  apply Reads.text
  apply Reads.text
  apply Reads.optional
  · apply Reads.many _ hlines (fun g _ => groupLine_ne_nil g)
    · apply Rejects.bind
      apply rejects_text_openNamespace _ (by decide)
      rw [line_cons, List.append_assoc]
      exact (rejects_text (by decide) (by decide)).append _
    · apply Reads.text
      apply Reads.text
      apply Reads.text
      apply Reads.many _ hequals (fun _ _ => EqualsStatement.equalsLine_ne_nil _)
      · exact EqualsStatement.rejects_read_return.append _
      · apply Reads.text
        apply Reads.text
        apply Reads.text
        apply Reads.text
        apply Reads.many _ hhashes (fun _ _ => HashStatement.hashLine_ne_nil _)
        · exact HashStatement.rejects_read_return
        · apply Reads.last
  · -- the line for contracts without members is missing only in front of a group
    intro hsome
    cases hgroups : c.groups with
    | nil =>
      rw [hgroups] at hsome
      cases hsome
    | cons g gs =>
      have hgroup : Rejects (text (line [utf8 "//   (no members; equality is type identity)"]))
          (groupLine g) := by
        rw [groupLine, line_cons (utf8 "//   order ")]
        exact (rejects_text (by decide) (by decide)).append _
      rw [List.flatMap_cons, List.append_assoc]
      exact hgroup.append _

/-- The section of a contract with identifiers for names reads as the contract has it. -/
theorem run_readSection {c : Contract} (htype : isIdentifier c.typeName = true)
    (hmembers : ∀ e ∈ c.entries, isIdentifier e.member.name = true) :
    (readSection c.ns c.typeName).run' c.code = some c.sectionReading := by
  rw [code_eq_coreText_append]
  show ((readSection c.ns c.typeName).run _).map Prod.fst = _
  rw [reads_coreText htype hmembers]
  rfl

end Contract

end Equate
