import Equate.Proofs.Declaration.Outline
/-!
# Quotes and literals

What a reading takes from its form beyond the outline: the texts that its diagnostics quote, and
the literals of constants.
-/

namespace Equate

/-! ## Quotes -/

namespace Malformation

/-- The text that the diagnostic for a malformation quotes. -/
def quote? : Malformation → Option Bytes
  | .unknownForm form => if form.head.isEmpty then some form.text else none
  | .unknownSetter value => some value.text
  | .notAMember form => some form.text
  | _ => none

/-- What is wrong with a form that declares nothing. -/
def ofUnknown : Node → Malformation
  | .absent => .emptyForm
  | form => .unknownForm form

theorem ofUnknown_outline (form : Node) : ofUnknown form.outline = (ofUnknown form).outline := by
  cases form <;> rfl

variable {a b : Malformation}

/-- Malformations with one outline differ in the node that they quote only. -/
theorem cases_of_outline_eq (h : a.outline = b.outline) :
    a = b ∨
      (∃ f g, a = .unknownForm f ∧ b = .unknownForm g ∧ f.head = g.head) ∨
      (∃ v w, a = .unknownSetter v ∧ b = .unknownSetter w) ∨
      ∃ f g, a = .notAMember f ∧ b = .notAMember g := by
  cases a with
  | unknownForm f =>
    cases b with
    | unknownForm g =>
      have hhead := congrArg Node.head (unknownForm.inj h)
      rw [Node.head_outline, Node.head_outline] at hhead
      exact .inr (.inl ⟨f, g, rfl, rfl, hhead⟩)
    | _ => cases h
  | unknownSetter v =>
    cases b with
    | unknownSetter w => exact .inr (.inr (.inl ⟨v, w, rfl, rfl⟩))
    | _ => cases h
  | notAMember f =>
    cases b with
    | notAMember g => exact .inr (.inr (.inr ⟨f, g, rfl, rfl⟩))
    | _ => cases h
  | _ =>
    rw [outline.eq_def b] at h
    split at h
    · cases h
    · cases h
    · cases h
    · exact .inl h

theorem isSome_quote?_eq (h : a.outline = b.outline) : a.quote?.isSome = b.quote?.isSome := by
  rcases cases_of_outline_eq h with rfl | ⟨f, g, rfl, rfl, hhead⟩ | ⟨v, w, rfl, rfl⟩ |
    ⟨f, g, rfl, rfl⟩
  · rfl
  · rw [quote?, quote?, hhead]
    split <;> rfl
  · rfl
  · rfl

/-- What is said about malformations with one outline differs in the quotes only. -/
theorem message_hint_eq_iff (h : a.outline = b.outline) :
    (a.message = b.message ∧ a.hint = b.hint) ↔ a.quote? = b.quote? := by
  rcases cases_of_outline_eq h with rfl | ⟨f, g, rfl, rfl, hhead⟩ | ⟨v, w, rfl, rfl⟩ |
    ⟨f, g, rfl, rfl⟩
  · simp
  · simp only [message, hint, quote?, formName, hhead]
    split <;> simp
  · simp [message, hint, quote?]
  · simp [message, hint, quote?]

end Malformation

/-- The texts that are quoted by the diagnostics for findings. -/
def quotesOf (findings : List Finding) : List Bytes := findings.filterMap fun f => f.fault.quote?

theorem Finding.diagnostic_eq_iff (rep : Reporter) {a b : Finding} (h : a.outline = b.outline) :
    a.diagnostic rep = b.diagnostic rep ↔ a.fault.quote? = b.fault.quote? := by
  obtain ⟨fault, location, notes⟩ := a
  obtain ⟨fault', location', notes'⟩ := b
  simp only [outline, mk.injEq] at h
  obtain ⟨hfault, rfl, rfl⟩ := h
  rw [← Malformation.message_hint_eq_iff hfault]
  simp [diagnostic, Reporter.diagnose, Reporter.diagnostic]

/-- Diagnostics for findings with one outline are the same if they quote the same. -/
theorem map_diagnostic_eq_iff (rep : Reporter) {as bs : List Finding}
    (h : as.map Finding.outline = bs.map Finding.outline) :
    as.map (Finding.diagnostic rep) = bs.map (Finding.diagnostic rep) ↔
      quotesOf as = quotesOf bs := by
  unfold quotesOf
  induction as generalizing bs with
  | nil =>
    rw [List.map_eq_nil_iff.1 h.symm]
    simp
  | cons a as ih =>
    obtain ⟨b, bs, rfl, hba, hrest⟩ := List.map_eq_cons_iff.1 h.symm
    have hsome := Malformation.isSome_quote?_eq (congrArg Finding.fault hba)
    rw [List.map_cons, List.map_cons, List.cons_eq_cons, Finding.diagnostic_eq_iff rep hba.symm,
      ih hrest.symm]
    cases ha : a.fault.quote? with
    | none =>
      rw [ha, Option.isSome_none, Option.isSome_eq_false_iff, Option.isNone_iff_eq_none] at hsome
      simp [ha, hsome]
    | some s =>
      rw [ha, Option.isSome_some, Option.isSome_iff_exists] at hsome
      obtain ⟨t, hb⟩ := hsome
      simp [ha, hb]

/-! ## Readings -/

theorem append_eq_append_iff_of_length {α : Type} {xs ys us vs : List α}
    (h : xs.length = ys.length) : xs ++ us = ys ++ vs ↔ xs = ys ∧ us = vs :=
  ⟨fun heq => List.append_inj heq h, fun ⟨hxs, hus⟩ => hxs ▸ hus ▸ rfl⟩

/-- The findings that are reported. -/
def PartialReading.findings {α : Type} (r : PartialReading α) : List Finding :=
  match r.declaration? with
  | none => r.opening
  | some _ => r.opening ++ r.body

theorem Reading.ofPartial_declaration? {α : Type} (rep : Reporter) (qualifiedName : α → Bytes)
    (wrap : α → Declaration) (r : PartialReading α) :
    (ofPartial rep qualifiedName wrap r).declaration? = r.declaration?.map wrap := by
  unfold ofPartial
  cases r.declaration? <;> rfl

/-- Readings of one name whose findings have one outline report the same if they quote the same. -/
theorem Reading.ofPartial_eq_iff {α : Type} (rep : Reporter) (qualifiedName : α → Bytes)
    (wrap : α → Declaration) {r s : PartialReading α}
    (hopening : r.opening.map Finding.outline = s.opening.map Finding.outline)
    (hbody : r.body.map Finding.outline = s.body.map Finding.outline)
    (hname : r.declaration?.map qualifiedName = s.declaration?.map qualifiedName) :
    (ofPartial rep qualifiedName wrap r).name = (ofPartial rep qualifiedName wrap s).name ∧
      (ofPartial rep qualifiedName wrap r).diagnostics.length =
        (ofPartial rep qualifiedName wrap s).diagnostics.length ∧
      ((ofPartial rep qualifiedName wrap r).diagnostics =
          (ofPartial rep qualifiedName wrap s).diagnostics ↔
        quotesOf r.findings = quotesOf s.findings) := by
  have hlength : r.opening.length = s.opening.length := by
    simpa using congrArg List.length hopening
  unfold ofPartial PartialReading.findings
  cases hr : r.declaration? with
  | none =>
    rw [hr, Option.map_none, eq_comm, Option.map_eq_none_iff] at hname
    rw [hname]
    exact ⟨rfl, by simpa using hlength, map_diagnostic_eq_iff rep hopening⟩
  | some d =>
    rw [hr, Option.map_some, eq_comm, Option.map_eq_some_iff] at hname
    obtain ⟨e, hs, he⟩ := hname
    have hbody' : r.body.length = s.body.length := by simpa using congrArg List.length hbody
    rw [hs]
    dsimp only
    refine ⟨he.symm, by simp [hlength, hbody'], ?_⟩
    -- the reporter that is told about the body makes no difference to the quotes
    rw [he, ← map_diagnostic_eq_iff rep (by rw [List.map_append, List.map_append, hopening, hbody]),
      List.map_append, List.map_append, append_eq_append_iff_of_length (by simpa using hlength),
      append_eq_append_iff_of_length (by simpa using hlength), map_diagnostic_eq_iff _ hbody,
      map_diagnostic_eq_iff _ hbody]

namespace Declaration

/-- The findings about a form. -/
def findings (form : Node) : List Finding :=
  if form.head = utf8 "class" then (ClassDeclaration.read form).findings
  else if form.head = utf8 "enumeration" then (EnumDeclaration.read form).findings
  else [⟨.ofUnknown form, form.location, []⟩]

/-- The texts that are quoted by the diagnostics about a form. -/
def quotes (form : Node) : List Bytes := quotesOf (findings form)

/-- The enumeration that a form declares. -/
def enumeration? (form : Node) : Option EnumDeclaration :=
  if form.head = utf8 "enumeration" then (EnumDeclaration.read form).declaration? else none

theorem read_of_enumeration? {form : Node} {d : EnumDeclaration} (h : enumeration? form = some d) :
    (EnumDeclaration.read form).declaration? = some d := by
  unfold enumeration? at h
  split at h
  · exact h
  · cases h

/-- The literals of the constants that a form declares. -/
def literals (form : Node) : List (Option (Int64 × Bytes)) :=
  ((enumeration? form).map fun d => d.constants.map ConstantDeclaration.literal?).getD []

variable {f g : Node}

theorem head_eq_of_outline_eq (h : f.outline = g.outline) : f.head = g.head := by
  rw [← Node.head_outline, h, Node.head_outline]

theorem read_class_eq (h : f.outline = g.outline) :
    (ClassDeclaration.read f).outline = (ClassDeclaration.read g).outline := by
  rw [← ClassDeclaration.read_outline, h, ClassDeclaration.read_outline]

theorem enumeration_read_eq (h : f.outline = g.outline) :
    (EnumDeclaration.read f).opening.map Finding.outline =
        (EnumDeclaration.read g).opening.map Finding.outline ∧
      (EnumDeclaration.read f).body.map Finding.outline =
        (EnumDeclaration.read g).body.map Finding.outline ∧
      (EnumDeclaration.read f).declaration?.map EnumDeclaration.withoutLiterals =
        (EnumDeclaration.read g).declaration?.map EnumDeclaration.withoutLiterals := by
  obtain ⟨hf, hf', hf''⟩ := EnumDeclaration.read_outline f
  obtain ⟨hg, hg', hg''⟩ := EnumDeclaration.read_outline g
  rw [← hf, ← hf', ← hf'', ← hg, ← hg', ← hg'', h]
  exact ⟨rfl, rfl, rfl⟩

theorem read_of_unknown (rep : Reporter) {form : Node} (hclass : form.head ≠ utf8 "class")
    (henumeration : form.head ≠ utf8 "enumeration") :
    read rep form =
      ⟨rep.declaration, [Finding.diagnostic rep ⟨.ofUnknown form, form.location, []⟩], none⟩ := by
  unfold read
  rw [if_neg hclass, if_neg henumeration]
  cases form <;> rfl

/-- Forms with one outline are read under one name, and what is reported about them differs in
quotes only. -/
theorem read_eq_iff (h : f.outline = g.outline) (rep : Reporter) :
    (read rep f).name = (read rep g).name ∧
      (read rep f).diagnostics.length = (read rep g).diagnostics.length ∧
      ((read rep f).diagnostics = (read rep g).diagnostics ↔ quotes f = quotes g) := by
  have hhead := head_eq_of_outline_eq h
  unfold quotes findings
  by_cases hclass : f.head = utf8 "class"
  · have hread := read_class_eq h
    simp only [PartialReading.outline, PartialReading.mk.injEq] at hread
    unfold read
    rw [← hhead, if_pos hclass, if_pos hclass, if_pos hclass, if_pos hclass]
    exact Reading.ofPartial_eq_iff rep _ _ hread.1 hread.2.1 (by rw [hread.2.2])
  by_cases henumeration : f.head = utf8 "enumeration"
  · obtain ⟨hopening, hbody, hdeclaration⟩ := enumeration_read_eq h
    have hname := congrArg (Option.map EnumDeclaration.qualifiedName) hdeclaration
    rw [Option.map_map, Option.map_map] at hname
    unfold read
    simp only [← hhead, if_neg hclass, if_pos henumeration]
    exact Reading.ofPartial_eq_iff rep _ _ hopening hbody hname
  · have hfindings : [Finding.mk (.ofUnknown f) f.location []].map Finding.outline =
        [Finding.mk (.ofUnknown g) g.location []].map Finding.outline := by
      simp only [List.map_singleton, Finding.outline]
      rw [← Malformation.ofUnknown_outline, ← Malformation.ofUnknown_outline, h,
        ← Node.location_outline f, h, Node.location_outline]
    rw [read_of_unknown rep hclass henumeration,
      read_of_unknown rep (hhead ▸ hclass) (hhead ▸ henumeration)]
    refine ⟨rfl, rfl, ?_⟩
    rw [← hhead, if_neg hclass, if_neg hclass, if_neg henumeration, if_neg henumeration]
    exact map_diagnostic_eq_iff rep hfindings

/-- Forms with one outline declare the same but for the literals of an enumeration. -/
theorem read_declaration?_cases (h : f.outline = g.outline) (rep : Reporter) :
    (enumeration? f = none ∧ enumeration? g = none ∧
        (read rep f).declaration? = (read rep g).declaration?) ∨
      ∃ d e, enumeration? f = some d ∧ enumeration? g = some e ∧
        (read rep f).declaration? = some (.enumeration d) ∧
        (read rep g).declaration? = some (.enumeration e) ∧
        d.withoutLiterals = e.withoutLiterals := by
  have hhead := head_eq_of_outline_eq h
  unfold enumeration?
  by_cases henumeration : f.head = utf8 "enumeration"
  · have hclass : f.head ≠ utf8 "class" := by
      rw [henumeration]
      decide
    obtain ⟨-, -, hdeclaration⟩ := enumeration_read_eq h
    unfold read
    rw [← hhead, if_pos henumeration, if_pos henumeration, if_neg hclass, if_neg hclass,
      if_pos henumeration, if_pos henumeration, Reading.ofPartial_declaration?,
      Reading.ofPartial_declaration?]
    cases hf : (EnumDeclaration.read f).declaration? with
    | none =>
      rw [hf, Option.map_none, eq_comm, Option.map_eq_none_iff] at hdeclaration
      exact .inl ⟨rfl, hdeclaration, by rw [hdeclaration]⟩
    | some d =>
      rw [hf, Option.map_some, eq_comm, Option.map_eq_some_iff] at hdeclaration
      obtain ⟨e, hg, he⟩ := hdeclaration
      rw [hg]
      exact .inr ⟨d, e, rfl, rfl, rfl, rfl, he.symm⟩
  · refine .inl ⟨if_neg henumeration, if_neg (hhead ▸ henumeration), ?_⟩
    by_cases hclass : f.head = utf8 "class"
    · have hread := congrArg PartialReading.declaration? (read_class_eq h)
      unfold read
      rw [← hhead, if_pos hclass, if_pos hclass, Reading.ofPartial_declaration?,
        Reading.ofPartial_declaration?]
      exact congrArg _ hread
    · rw [read_of_unknown rep hclass henumeration,
        read_of_unknown rep (hhead ▸ hclass) (hhead ▸ henumeration)]

/-- Whatever is found wrong with a form is an error. -/
theorem severity_of_mem_diagnostics (rep : Reporter) (form : Node) {d : Diagnostic}
    (h : d ∈ (read rep form).diagnostics) : d.severity = .error := by
  have hpartial {α : Type} {q : α → Bytes} {wrap : α → Declaration} {r : PartialReading α}
      (h : d ∈ (Reading.ofPartial rep q wrap r).diagnostics) : d.severity = .error := by
    unfold Reading.ofPartial at h
    cases hr : r.declaration? with
    | none =>
      rw [hr] at h
      obtain ⟨f, -, rfl⟩ := List.mem_map.1 h
      rfl
    | some e =>
      rw [hr] at h
      rcases List.mem_append.1 h with h | h
      · obtain ⟨f, -, rfl⟩ := List.mem_map.1 h
        rfl
      · obtain ⟨f, -, rfl⟩ := List.mem_map.1 h
        rfl
  unfold read at h
  split at h
  · exact hpartial h
  · split at h
    · exact hpartial h
    · obtain rfl := List.mem_singleton.1 h
      rfl

end Declaration

/-! ## Literals -/

theorem ConstantDeclaration.position_eq_of_read {position : Nat} {form : Node}
    {c : ConstantDeclaration} (h : (read position form).2 = some c) : c.position = position := by
  unfold read at h
  split at h
  · rcases readClauses "constant" form.arguments with ⟨clauses, stop⟩
    dsimp only at h
    split at h
    · cases h
    · cases h
      rfl
  · cases h

/-- The constants of an enumeration stand at different places. -/
theorem ConstantDeclaration.pairwise_position (position : Nat) (forms : List Node) :
    ((readAll position forms).2.Pairwise fun c d => c.position < d.position) ∧
      ∀ c ∈ (readAll position forms).2, position ≤ c.position := by
  induction forms generalizing position with
  | nil => exact ⟨.nil, nofun⟩
  | cons form rest ih =>
    simp only [readAll]
    cases hread : (read position form).2 with
    | none => exact ih position
    | some c =>
      obtain ⟨hpairwise, hle⟩ := ih (position + 1)
      have hc := position_eq_of_read hread
      simp only [Option.isSome_some, if_true, Option.toList_some, List.singleton_append]
      refine ⟨List.pairwise_cons.2 ⟨fun d hd => ?_, hpairwise⟩, fun d hd => ?_⟩
      · have := hle d hd
        omega
      · rcases List.mem_cons.1 hd with rfl | hd
        · exact hc.ge
        · have := hle d hd
          omega

theorem EnumDeclaration.pairwise_position {form : Node} {d : EnumDeclaration}
    (h : (read form).declaration? = some d) :
    d.constants.Pairwise fun c e => c.position < e.position := by
  unfold read at h
  rcases readClauses "enumeration" form.arguments with ⟨clauses, stop⟩
  dsimp only at h
  split at h
  · cases h
  · cases h
    exact (ConstantDeclaration.pairwise_position 0 _).1

/-- The literals with the places of their constants. -/
def placedLiterals (cs : List ConstantDeclaration) : List (Nat × Int64 × Bytes) :=
  cs.filterMap fun c => c.literal?.map (c.position, ·)

theorem lt_of_mem_placedLiterals {cs : List ConstantDeclaration} {n : Nat}
    (h : ∀ c ∈ cs, n < c.position) {l : Nat × Int64 × Bytes} (hl : l ∈ placedLiterals cs) :
    n < l.1 := by
  obtain ⟨c, hc, hl⟩ := List.mem_filterMap.1 hl
  obtain ⟨l', -, rfl⟩ := Option.map_eq_some_iff.1 hl
  exact h c hc

/-- Constants at different places tell their literals by the places where there is one. -/
theorem literals_eq_of_placedLiterals {cs ds : List ConstantDeclaration}
    (h : cs.map ConstantDeclaration.withoutLiteral = ds.map ConstantDeclaration.withoutLiteral)
    (hcs : cs.Pairwise fun c e => c.position < e.position)
    (hds : ds.Pairwise fun c e => c.position < e.position)
    (hplaced : placedLiterals cs = placedLiterals ds) :
    cs.map ConstantDeclaration.literal? = ds.map ConstantDeclaration.literal? := by
  induction cs generalizing ds with
  | nil => rw [List.map_eq_nil_iff.1 h.symm]
  | cons c cs ih =>
    obtain ⟨d, ds, rfl, hdc, hrest⟩ := List.map_eq_cons_iff.1 h.symm
    obtain ⟨hc, hcs⟩ := List.pairwise_cons.1 hcs
    obtain ⟨hd, hds⟩ := List.pairwise_cons.1 hds
    have hposition : d.position = c.position := by
      simpa [ConstantDeclaration.withoutLiteral] using congrArg ConstantDeclaration.position hdc
    cases hcl : c.literal? with
    | none =>
      cases hdl : d.literal? with
      | none =>
        simp only [placedLiterals, List.filterMap_cons, hcl, hdl, Option.map_none] at hplaced
        simp only [List.map_cons, hcl, hdl, ih hrest.symm hcs hds hplaced]
      | some l =>
        have hmem : (d.position, l) ∈ placedLiterals cs := by
          simp only [placedLiterals, List.filterMap_cons, hcl, hdl, Option.map_none,
            Option.map_some] at hplaced
          rw [placedLiterals, hplaced]
          exact List.mem_cons_self
        -- every other literal stands behind this place
        have := lt_of_mem_placedLiterals hc hmem
        omega
    | some l =>
      cases hdl : d.literal? with
      | none =>
        have hmem : (c.position, l) ∈ placedLiterals ds := by
          simp only [placedLiterals, List.filterMap_cons, hcl, hdl, Option.map_none,
            Option.map_some] at hplaced
          rw [placedLiterals, ← hplaced]
          exact List.mem_cons_self
        have := lt_of_mem_placedLiterals hd hmem
        omega
      | some l' =>
        simp only [placedLiterals, List.filterMap_cons, hcl, hdl, Option.map_some,
          List.cons.injEq, Prod.mk.injEq] at hplaced
        rw [List.map_cons, List.map_cons, hcl, hdl, hplaced.1.2,
          ih hrest.symm hcs hds hplaced.2]

end Equate
