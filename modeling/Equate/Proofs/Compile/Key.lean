import Equate.Proofs.Compile.Session
import Equate.Proofs.Declaration.Quotes
import Equate.Proofs.Enumeration.Check
/-!
# What a key tells about an output

Forms that are equal with their nodes at the same places have one key. They need not have one
output, since a key tells nothing about quotes and literals: `ofReading_eq_iff` compares readings
of one declaration, `ofReading_enumeration_eq_iff` readings of enumerations that differ in their
literals.
-/

namespace Equate

/-! ## Checks -/

/-- What the check of a declaration reports. -/
def Declaration.checkReport (fixHints : Bool) : Option Declaration → Report
  | some (.classDeclaration d) => (d.check fixHints).report
  | some (.enumeration d) => (d.check fixHints).report
  | none => .empty

namespace EnumDeclaration

variable {d e : EnumDeclaration}

theorem eq_of_withoutLiterals (h : d.withoutLiterals = e.withoutLiterals)
    (hliterals : d.constants.map ConstantDeclaration.literal? =
      e.constants.map ConstantDeclaration.literal?) : d = e := by
  have hconstants : d.constants = e.constants := by
    have hskeleton : d.constants.map ConstantDeclaration.withoutLiteral =
        e.constants.map ConstantDeclaration.withoutLiteral := congrArg constants h
    refine List.ext_getElem (by simpa using congrArg List.length hskeleton) fun i hi hi' => ?_
    have hc := List.getElem_of_eq hskeleton (by simpa using hi)
    have hl := List.getElem_of_eq hliterals (by simpa using hi)
    simp only [List.getElem_map, ConstantDeclaration.withoutLiteral,
      ConstantDeclaration.mk.injEq] at hc hl
    rw [ConstantDeclaration.mk.injEq]
    exact ⟨hc.1, hl, hc.2.2⟩
  simp only [withoutLiterals, mk.injEq] at h
  rw [mk.injEq]
  exact ⟨h.1, h.2.1, h.2.2.1, hconstants, h.2.2.2.2⟩

theorem placedLiterals_eq_map_entries (d : EnumDeclaration) :
    placedLiterals d.constants = d.table.entries.map fun e => (e.position, e.value, e.name) := by
  simp only [placedLiterals, table, literals, List.map_filterMap]
  congr 1
  funext c
  unfold LiteralConstant.ofDeclaration?
  cases c.literal? <;> rfl

end EnumDeclaration

/-- What is reported about the values and names of the constants that a form declares. -/
def Declaration.clashes (fixHints : Bool) (form : Node) : List Diagnostic :=
  ((enumeration? form).map (EnumDeclaration.clashes fixHints)).getD []

namespace Output

variable {fixHints : Bool}

/-- What a reading compiles to. -/
def ofReading (fixHints : Bool) (c : Reading) : Output :=
  match c.declaration? with
  | some (.classDeclaration d) => ofContractCheck c.name c.report (d.check fixHints)
  | some (.enumeration d) => ofEnumerationCheck c.name c.report (d.check fixHints)
  | none => { name := c.name, report := c.report }

theorem ofForm_eq_ofReading (fixHints : Bool) (form : Node) :
    ofForm fixHints form = ofReading fixHints (Declaration.read { fixHints } form) := rfl

theorem report_ofContractCheck (name : Bytes) (reading : Report) (r : ContractCheck) :
    (ofContractCheck name reading r).report = reading.merge r.report := by
  unfold ofContractCheck
  dsimp only
  split <;> rfl

theorem report_ofEnumerationCheck (name : Bytes) (reading : Report) (r : EnumerationCheck) :
    (ofEnumerationCheck name reading r).report = reading.merge r.report := by
  unfold ofEnumerationCheck
  dsimp only
  split <;> rfl

theorem report_ofReading (c : Reading) :
    (ofReading fixHints c).report =
      c.report.merge (Declaration.checkReport fixHints c.declaration?) := by
  unfold ofReading
  split
  · rw [report_ofContractCheck]
    simp only [Declaration.checkReport, *]
  · rw [report_ofEnumerationCheck]
    simp only [Declaration.checkReport, *]
  · simp [Declaration.checkReport, Report.merge, Report.empty, *]

/-- Readings of one declaration under one name have one output if they report the same. -/
theorem ofReading_eq_iff {c d : Reading} (hname : c.name = d.name)
    (hdeclaration : c.declaration? = d.declaration?)
    (hc : ∀ x ∈ c.diagnostics, x.severity = .error)
    (hd : ∀ x ∈ d.diagnostics, x.severity = .error) :
    ofReading fixHints c = ofReading fixHints d ↔ c.diagnostics = d.diagnostics := by
  constructor
  · intro h
    have hreport := congrArg report h
    rw [report_ofReading, report_ofReading, hdeclaration] at hreport
    exact (Report.ofList_merge_inj hc hd _).1 hreport
  · intro h
    have hcd : c = d := by
      rw [Reading.mk.injEq]
      exact ⟨hname, h, hdeclaration⟩
    rw [hcd]

theorem ofEnumerationCheck_check (name : Bytes) (reading : Report) (d : EnumDeclaration) :
    ofEnumerationCheck name reading (d.check fixHints) =
      let report := reading.merge (d.check fixHints).report
      if report.success then { name, report, table? := some d.table, code := d.table.code }
      else { name, report } := by
  unfold ofEnumerationCheck
  rw [EnumDeclaration.check_eq]
  dsimp only
  generalize Report.ofList (d.violations.map (EnumViolation.diagnostic _ d)) = check
  cases hsuccess : (reading.merge check).success with
  | false => rfl
  | true =>
    have hcheck : check.success = true := (Bool.and_eq_true_iff.1 hsuccess).2
    rw [hcheck]
    rfl

theorem eq_table_of_ofEnumerationCheck {name : Bytes} {reading : Report} {d : EnumDeclaration}
    {t : LookupTable}
    (h : (ofEnumerationCheck name reading (d.check fixHints)).table? = some t) : t = d.table := by
  rw [ofEnumerationCheck_check] at h
  dsimp only at h
  split at h
  · exact (Option.some.inj h).symm
  · cases h

theorem ofReading_enumeration {r : Reading} {d : EnumDeclaration}
    (hr : r.declaration? = some (.enumeration d)) :
    ofReading fixHints r = ofEnumerationCheck r.name r.report (d.check fixHints) := by
  rw [ofReading, hr]

/-- The errors of an enumeration: first those of its form, then those of its constants. -/
theorem errors_ofReading_enumeration {r : Reading} {d : EnumDeclaration}
    (hr : r.declaration? = some (.enumeration d))
    (herrors : ∀ x ∈ r.diagnostics, x.severity = .error) :
    (ofReading fixHints r).report.errors = r.diagnostics ++ d.clashes fixHints := by
  rw [ofReading_enumeration hr, report_ofEnumerationCheck, d.report_check, Reading.report,
    Report.ofList_of_errors herrors]
  rfl

/-- Readings of enumerations that differ in literals only have one output if they report the same
and either the literals agree, or there is no table to show them and the same is said about
them. -/
theorem ofReading_enumeration_eq_iff {r s : Reading} {d e : EnumDeclaration}
    (hname : r.name = s.name) (hlength : r.diagnostics.length = s.diagnostics.length)
    (hr : ∀ x ∈ r.diagnostics, x.severity = .error)
    (hs : ∀ x ∈ s.diagnostics, x.severity = .error)
    (hrd : r.declaration? = some (.enumeration d)) (hse : s.declaration? = some (.enumeration e))
    (hde : d.withoutLiterals = e.withoutLiterals)
    (hd : d.constants.Pairwise fun c c' => c.position < c'.position)
    (he : e.constants.Pairwise fun c c' => c.position < c'.position) :
    ofReading fixHints r = ofReading fixHints s ↔
      r.diagnostics = s.diagnostics ∧
        (d.constants.map ConstantDeclaration.literal? =
            e.constants.map ConstantDeclaration.literal? ∨
          (ofReading fixHints r).table? = none ∧ d.clashes fixHints = e.clashes fixHints) := by
  constructor
  · intro h
    have herrors := congrArg (fun out => out.report.errors) h
    simp only [errors_ofReading_enumeration hrd hr, errors_ofReading_enumeration hse hs] at herrors
    obtain ⟨hdiagnostics, hclashes⟩ := List.append_inj herrors hlength
    refine ⟨hdiagnostics, ?_⟩
    cases htable : (ofReading fixHints r).table? with
    | none => exact .inr ⟨rfl, hclashes⟩
    | some t =>
      have htable' := htable
      rw [h, ofReading_enumeration hse] at htable'
      rw [ofReading_enumeration hrd] at htable
      have htables : d.table = e.table :=
        (eq_table_of_ofEnumerationCheck htable).symm.trans (eq_table_of_ofEnumerationCheck htable')
      refine .inl (literals_eq_of_placedLiterals (congrArg EnumDeclaration.constants hde) hd he ?_)
      rw [d.placedLiterals_eq_map_entries, e.placedLiterals_eq_map_entries, htables]
  · rintro ⟨hdiagnostics, hliterals | ⟨htable, hclashes⟩⟩
    · obtain rfl := EnumDeclaration.eq_of_withoutLiterals hde hliterals
      exact (ofReading_eq_iff hname (hrd.trans hse.symm) hr hs).2 hdiagnostics
    · have hcheck : (d.check fixHints).report = (e.check fixHints).report := by
        rw [d.report_check, e.report_check, hclashes]
      have hreading : r.report = s.report := congrArg Report.ofList hdiagnostics
      rw [ofReading_enumeration hrd, ofEnumerationCheck_check] at htable
      rw [ofReading_enumeration hrd, ofReading_enumeration hse, ofEnumerationCheck_check,
        ofEnumerationCheck_check, ← hcheck, ← hreading, ← hname]
      dsimp only at htable ⊢
      -- the report fails on both sides or on none, and where it succeeds there is a table
      split at htable
      · cases htable
      · rename_i hfailure
        rw [if_neg hfailure, if_neg hfailure]

/-- Equal forms with their nodes at the same places have one key. They have one output exactly if
the same is quoted from both and the literals of their constants agree, or there is no table to
show the literals and the same is said about them. -/
theorem key_eq_and_ofForm_eq_iff (fixHints : Bool) {f g : Node} (h : f.equal g = true)
    (hplaces : f.places = g.places) :
    f.positionedHash = g.positionedHash ∧ key fixHints f = key fixHints g ∧
      (ofForm fixHints f = ofForm fixHints g ↔
        Declaration.quotes f = Declaration.quotes g ∧
          (Declaration.literals f = Declaration.literals g ∨
            (ofForm fixHints f).table? = none ∧
              Declaration.clashes fixHints f = Declaration.clashes fixHints g)) := by
  have hhash := Node.positionedHash_eq_of_equal h hplaces
  refine ⟨hhash, by rw [key, key, hhash], ?_⟩
  have houtline := Node.outline_eq_of_equal h hplaces
  obtain ⟨hname, hlength, hquotes⟩ := Declaration.read_eq_iff houtline { fixHints }
  have hf : ∀ x ∈ (Declaration.read { fixHints } f).diagnostics, x.severity = .error :=
    fun _ => Declaration.severity_of_mem_diagnostics _ f
  have hg : ∀ x ∈ (Declaration.read { fixHints } g).diagnostics, x.severity = .error :=
    fun _ => Declaration.severity_of_mem_diagnostics _ g
  rw [ofForm_eq_ofReading, ofForm_eq_ofReading, ← hquotes]
  unfold Declaration.literals Declaration.clashes
  rcases Declaration.read_declaration?_cases houtline { fixHints } with
    ⟨hfe, hge, hdeclaration⟩ | ⟨d, e, hfe, hge, hfd, hgd, hde⟩
  · rw [ofReading_eq_iff hname hdeclaration hf hg, hfe, hge]
    simp
  · have hd := EnumDeclaration.pairwise_position (Declaration.read_of_enumeration? hfe)
    have he := EnumDeclaration.pairwise_position (Declaration.read_of_enumeration? hge)
    rw [ofReading_enumeration_eq_iff hname hlength hf hg hfd hgd hde hd he, hfe, hge]
    rfl

/-- A module with an option that a class does not have. -/
def taggedClass (tags : Bytes) : Bytes :=
  utf8 "(module (class :name A :tags " ++ tags ++ utf8 "))"

theorem ofForm_eq_of_unread_option :
    ∃ f ∈ submittedForms true (taggedClass "#\x7b1   2\x7d"),
      ∃ g ∈ submittedForms true (taggedClass "#\x7b2   1\x7d"),
        f.equal g = true ∧ f.places = g.places ∧ key true f = key true g ∧
          ofForm true f = ofForm true g := by
  obtain ⟨f, hf, g, hg, h, hplaces, hquotes, hliterals⟩ :
      ∃ f ∈ submittedForms true (taggedClass "#\x7b1   2\x7d"),
        ∃ g ∈ submittedForms true (taggedClass "#\x7b2   1\x7d"),
          f.equal g = true ∧ f.places = g.places ∧
            Declaration.quotes f = Declaration.quotes g ∧
            Declaration.literals f = Declaration.literals g := by decide +kernel
  obtain ⟨-, hkey, houtput⟩ := key_eq_and_ofForm_eq_iff true h hplaces
  exact ⟨f, hf, g, hg, h, hplaces, hkey, houtput.2 ⟨hquotes, .inl hliterals⟩⟩

/-- A module with an enumeration of one constant. -/
def constantWith (arguments : Bytes) : Bytes :=
  utf8 "(module (enumeration :name E :partial true :constants [(constant :name A :args " ++
    arguments ++ utf8 ")]))"

/-- The arguments of a constant can be a set, and are read in the order of its elements. -/
theorem ofForm_ne_of_key_eq :
    ∃ f ∈ submittedForms true (constantWith "#\x7b1   \"a\"\x7d"),
      ∃ g ∈ submittedForms true (constantWith "#\x7b\"a\" 1\x7d"),
        f.equal g = true ∧ f.places = g.places ∧ key true f = key true g ∧
          ofForm true f ≠ ofForm true g := by
  decide +kernel

end Output

end Equate
